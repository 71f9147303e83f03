import Infinity.Foundations.ByteCodec

/-! # Nodes of the term dictionary (`storage/invertedindex/fst/node.cppm`, `bytes.cppm`)

A node of the transducer is written backwards: its address is the place of its last byte, the state
byte, and everything else lies before it. There are three layouts: one transition to the node
written just before, one transition, and any number of transitions, with an index of 256 bytes if
there are many.

* `Node.make`, `Node.findInput`, `Node.transAt`: what the reader makes of the bytes.
-/

namespace Infinity.Fst

open Foundations

/-! ## Packed integers -/

/-- `PackSize`: the number of bytes of an integer, 1 to 8. -/
def packSize (n : ℕ) : ℕ :=
  if n < 2 ^ 8 then 1
  else if n < 2 ^ 16 then 2
  else if n < 2 ^ 24 then 3
  else if n < 2 ^ 32 then 4
  else if n < 2 ^ 40 then 5
  else if n < 2 ^ 48 then 6
  else if n < 2 ^ 56 then 7
  else 8

/-- `PackUintIn`: the lowest bytes of an integer. -/
def packUintIn (n nbytes : ℕ) : Bytes := leBytes nbytes n

/-- A place computed in `SizeT`. -/
def wrap (i : ℤ) : ℕ := (i % 2 ^ 64).toNat

/-- The byte at a place; a place outside of the buffer is undefined. -/
def byteAt (data : Bytes) (i : ℤ) : Option UInt8 := data[wrap i]?

/-- `UnpackUint`: the integer in some bytes from a place on. -/
def unpackUint (data : Bytes) (i : ℤ) (nbytes : ℕ) : Option ℕ :=
  if nbytes ≤ 8 ∧ wrap i + nbytes ≤ data.length then
    some (leValue ((data.drop (wrap i)).take nbytes))
  else none

/-! ## Common inputs -/

/-- `COMMON_INPUTS`: the bytes by how often they occur. -/
def commonInputs : List UInt8 :=
  [84, 85, 86, 87, 88, 89, 90, 91, 92, 93, 94, 95, 96, 97, 98, 99, 100, 101, 102, 103, 104,
    105, 106,
    107, 108, 109, 110, 111, 112, 113, 114, 115, 116, 80, 117, 118, 79, 39, 30, 81, 75, 74, 82,
    57, 66,
    16, 12, 2, 19, 20, 21, 27, 32, 29, 35, 36, 37, 34, 24, 73, 119, 23, 120, 40, 83, 44, 48, 42, 43,
    49, 46, 62, 61, 47, 69, 68, 58, 56, 55, 59, 51, 72, 54, 45, 52, 64, 65, 63, 71, 67, 70, 77, 121,
    78, 122, 31, 123, 4, 25, 9, 17, 1, 26, 22, 13, 7, 50, 38, 14, 15, 10, 3, 8, 60, 6, 5, 0, 18, 33,
    11, 41, 28, 53, 124, 125, 126, 76, 127, 128, 129, 130, 131, 132, 133, 134, 135, 136, 137,
    138, 139,
    140, 141, 142, 143, 144, 145, 146, 147, 148, 149, 150, 151, 152, 153, 154, 155, 156, 157,
    158, 159,
    160, 161, 162, 163, 164, 165, 166, 167, 168, 169, 170, 171, 172, 173, 174, 175, 176, 177,
    178, 179,
    180, 181, 182, 183, 184, 185, 186, 187, 188, 189, 190, 191, 192, 193, 194, 195, 196, 197,
    198, 199,
    200, 201, 202, 203, 204, 205, 206, 207, 208, 209, 210, 211, 212, 213, 214, 215, 216, 217,
    218, 219,
    220, 221, 222, 223, 224, 225, 226, 227, 228, 229, 230, 231, 232, 233, 234, 235, 236, 237,
    238, 239, 240, 241, 242, 243, 244, 245, 246, 247, 248, 249, 250, 251, 252, 253, 254, 255]

/-- `COMMON_INPUTS_INV`. -/
def commonInputsInv : List UInt8 :=
  [116, 101, 47, 111, 97, 115, 114, 105, 112, 99, 110, 119, 46, 104, 108, 109, 45, 100, 117, 48, 49,
    50, 103, 61, 58, 98, 102, 51, 121, 53, 38, 95, 52, 118, 57, 54, 55, 56, 107, 37, 63, 120,
    67, 68,
    65, 83, 70, 73, 66, 69, 106, 80, 84, 122, 82, 78, 77, 43, 76, 79, 113, 72, 71, 87, 85, 86,
    44, 89,
    75, 74, 90, 88, 81, 59, 41, 40, 126, 91, 93, 36, 33, 39, 42, 64, 0, 1, 2, 3, 4, 5, 6, 7, 8,
    9, 10,
    11, 12, 13, 14, 15, 16, 17, 18, 19, 20, 21, 22, 23, 24, 25, 26, 27, 28, 29, 30, 31, 32, 34,
    35, 60,
    62, 92, 94, 96, 123, 124, 125, 127, 128, 129, 130, 131, 132, 133, 134, 135, 136, 137, 138, 139,
    140, 141, 142, 143, 144, 145, 146, 147, 148, 149, 150, 151, 152, 153, 154, 155, 156, 157,
    158, 159,
    160, 161, 162, 163, 164, 165, 166, 167, 168, 169, 170, 171, 172, 173, 174, 175, 176, 177,
    178, 179,
    180, 181, 182, 183, 184, 185, 186, 187, 188, 189, 190, 191, 192, 193, 194, 195, 196, 197,
    198, 199,
    200, 201, 202, 203, 204, 205, 206, 207, 208, 209, 210, 211, 212, 213, 214, 215, 216, 217,
    218, 219,
    220, 221, 222, 223, 224, 225, 226, 227, 228, 229, 230, 231, 232, 233, 234, 235, 236, 237,
    238, 239, 240, 241, 242, 243, 244, 245, 246, 247, 248, 249, 250, 251, 252, 253, 254, 255]

/-- `State::CommonIdx`: the number of a byte in a state byte, 0 if it is not common enough. -/
def commonIdx (input : UInt8) (max : ℕ) : ℕ :=
  let val := ((commonInputs.getD input.toNat 0).toNat + 1) % 256
  if max < val then 0 else val

/-- `State::CommonInput`: the byte with a number. -/
def commonInput (idx : ℕ) : Option UInt8 :=
  if idx = 0 then none else some (commonInputsInv.getD (idx - 1) 0)

/-! ## Writing -/

/-- `EMPTY_ADDRESS`: the address of the final state without transitions and output. -/
def emptyAddress : ℕ := 0

/-- `NONE_ADDRESS`. -/
def noneAddress : ℕ := 1

/-- `TRANS_INDEX_THRESHOLD`. -/
def transIndexThreshold : ℕ := 32

/-- `Transition`. -/
structure Transition where
  inp : UInt8
  out : UInt64
  addr : ℕ
  deriving DecidableEq, Repr

/-- `BuilderNode`. -/
structure BuilderNode where
  isFinal : Bool
  finalOutput : UInt64
  trans : List Transition
  deriving DecidableEq, Repr

/-- `PackDelta` before it is packed. -/
def deltaAddr (nodeAddr transAddr : ℕ) : ℕ :=
  if transAddr = emptyAddress then emptyAddress else nodeAddr - transAddr

/-- `State::PackDeltaIn`. -/
def packDeltaIn (nodeAddr transAddr nbytes : ℕ) : Bytes :=
  packUintIn (deltaAddr nodeAddr transAddr) nbytes

/-- `State::PackDeltaSize`. -/
def packDeltaSize (nodeAddr transAddr : ℕ) : ℕ := packSize (deltaAddr nodeAddr transAddr)

/-- `PackSizes` with both sizes. -/
def packSizes (tsize osize : ℕ) : UInt8 := UInt8.ofNat (16 * tsize + osize)

/-- The input byte in front of a state byte, unless it is in the state byte. -/
def inputBytes (input : UInt8) : Bytes := if commonIdx input 63 = 0 then [input] else []

/-- `StateOneTransNext::Compile`. -/
def compileOneTransNext (input : UInt8) : Bytes :=
  inputBytes input ++ [0xC0 ||| UInt8.ofNat (commonIdx input 63)]

/-- `StateOneTrans::Compile`. -/
def compileOneTrans (addr : ℕ) (t : Transition) : Bytes :=
  let osize := if t.out = 0 then 0 else packSize t.out.toNat
  let tsize := packDeltaSize addr t.addr
  packUintIn t.out.toNat osize ++ packDeltaIn addr t.addr tsize ++ [packSizes tsize osize] ++
    inputBytes t.inp ++ [0x80 ||| UInt8.ofNat (commonIdx t.inp 63)]

namespace BuilderNode

def anyOuts (node : BuilderNode) : Bool := node.finalOutput ≠ 0 || node.trans.any fun t => t.out ≠ 0

def tsize (node : BuilderNode) (addr : ℕ) : ℕ :=
  node.trans.foldl (fun m t => max m (packDeltaSize addr t.addr)) 0

def osize (node : BuilderNode) : ℕ :=
  node.trans.foldl (fun m t => max m (packSize t.out.toNat)) (packSize node.finalOutput.toNat)

def writtenOsize (node : BuilderNode) : ℕ := if node.anyOuts then node.osize else 0

/-- The index of a node with many transitions: the number of the transition of each byte, or 255. -/
def transIndex (node : BuilderNode) : Bytes := (List.range 256).map fun b =>
    node.trans.zipIdx.foldl (fun i p => if p.1.inp.toNat = b then UInt8.ofNat p.2 else i) 255

/-- `SetFinalState` and `SetStateNtrans`, whose argument is cut to a byte. -/
def stateByte (node : BuilderNode) : UInt8 := (if node.isFinal then 0x40 else 0) |||
    (if UInt8.ofNat node.trans.length ≤ 63 then UInt8.ofNat node.trans.length else 0)

/-- The byte with the number of transitions, unless the state byte has it; 1 stands for 256. -/
def ntransByte (node : BuilderNode) : Bytes :=
  if node.stateByte &&& 0x3F = 0 then
    [if node.trans.length = 256 then 1 else UInt8.ofNat node.trans.length]
  else []

/-- `StateAnyTrans::Compile`. -/
def compileAnyTrans (node : BuilderNode) (addr : ℕ) : Bytes := (if node.anyOuts then
    (if node.isFinal then packUintIn node.finalOutput.toNat node.osize else []) ++
      node.trans.reverse.flatMap fun t => packUintIn t.out.toNat node.osize
   else []) ++
  (node.trans.reverse.flatMap fun t => packDeltaIn addr t.addr (node.tsize addr)) ++
  node.trans.reverse.map Transition.inp ++
  (if transIndexThreshold < node.trans.length then node.transIndex else []) ++
  [packSizes (node.tsize addr) node.writtenOsize] ++ node.ntransByte ++ [node.stateByte]

/-- `Node::Compile`. -/
def compile (node : BuilderNode) (lastAddr addr : ℕ) : Bytes :=
  if node.trans = [] ∧ node.isFinal ∧ node.finalOutput = 0 then []
  else
    match node.trans, node.isFinal with
    | [t], false =>
      if t.addr = lastAddr ∧ t.out = 0 then compileOneTransNext t.inp else compileOneTrans addr t
    | _, _ => node.compileAnyTrans addr

end BuilderNode

/-! ## Reading -/

/-- `Node`. -/
structure Node where
  state : UInt8
  isFinal : Bool
  ntrans : UInt8
  start : ℕ
  endAddr : ℕ
  sizes : UInt8
  finalOutput : UInt64
  deriving DecidableEq, Repr

/-- `PackSizes::TransitionPackSize`. -/
def transitionPackSize (sizes : UInt8) : ℕ := sizes.toNat / 16

/-- `PackSizes::OutputPackSize`. -/
def outputPackSize (sizes : UInt8) : ℕ := sizes.toNat % 16

/-- `InputLen` of the two states with one transition. -/
def inputLen (state : UInt8) : ℕ := if state &&& 0x3F ≠ 0 then 0 else 1

/-- `StateAnyTrans::NtransLen`. -/
def ntransLen (state : UInt8) : ℕ := if state &&& 0x3F = 0 then 1 else 0

/-- `StateAnyTrans::TransIndexSize`. -/
def transIndexSize (ntrans : ℕ) : ℕ := if transIndexThreshold < ntrans then 256 else 0

/-- `StateAnyTrans::TotalTransSize`. -/
def totalTransSize (sizes : UInt8) (ntrans : ℕ) : ℕ :=
  ntrans + ntrans * transitionPackSize sizes + transIndexSize ntrans

/-- `State::UnpackDelta`. -/
def unpackDelta (data : Bytes) (i : ℤ) (tsize nodeAddr : ℕ) : Option ℕ := do
  let delta ← unpackUint data i tsize
  if delta = emptyAddress then some emptyAddress else some (wrap (nodeAddr - delta))

namespace Node

/-- `StateAnyTrans::Ntrans`. -/
def anyNtrans (data : Bytes) (state : UInt8) (addr : ℕ) : Option ℕ :=
  if state &&& 0x3F ≠ 0 then some (state &&& 0x3F).toNat
  else do
    let ntrans ← byteAt data (addr - 1)
    some (if ntrans = 1 then 256 else ntrans.toNat)

/-- `StateAnyTrans::FinalOutput`. -/
def anyFinalOutput (data : Bytes) (state : UInt8) (addr : ℕ) (sizes : UInt8) (ntrans : ℕ) :
    Option UInt64 :=
  if outputPackSize sizes = 0 ∨ state &&& 0x40 = 0 then some 0
  else do
    let out ← unpackUint data (addr - ntransLen state - 1 - totalTransSize sizes ntrans -
      ntrans * outputPackSize sizes - outputPackSize sizes) (outputPackSize sizes)
    some (UInt64.ofNat out)

/-- `StateAnyTrans::EndAddr`. -/
def anyEndAddr (state : UInt8) (addr : ℕ) (sizes : UInt8) (ntrans : ℕ) : ℕ :=
  wrap (addr - ntransLen state - 1 - totalTransSize sizes ntrans - ntrans * outputPackSize sizes -
    (if state &&& 0x40 = 0 then 0 else outputPackSize sizes))

/-- `Node::Node`. The length `data_len_` of the data up to the node is its address plus one. -/
def make (data : Bytes) (addr : ℕ) : Option Node :=
  if addr = emptyAddress then some ⟨0, true, 0, emptyAddress, emptyAddress, 0, 0⟩
  else do
    let state ← data[addr]?
    if state &&& 0xC0 = 0xC0 then
      some ⟨state, false, 1, addr, wrap (addr - inputLen state), 0, 0⟩
    else if state &&& 0xC0 = 0x80 then do
      let sizes ← byteAt data (addr - inputLen state - 1)
      some ⟨state, false, 1, addr, wrap (addr - inputLen state - 1 - transitionPackSize sizes -
        outputPackSize sizes), sizes, 0⟩
    else do
      let ntrans ← anyNtrans data state addr
      let sizes ← byteAt data (addr - ntransLen state - 1)
      let finalOutput ← anyFinalOutput data state addr sizes ntrans
      some ⟨state, state &&& 0x40 ≠ 0, UInt8.ofNat ntrans, addr, anyEndAddr state addr sizes ntrans,
        sizes, finalOutput⟩

/-- `Input` of the two states with one transition. -/
def oneInput (data : Bytes) (node : Node) : Option UInt8 :=
  match commonInput (node.state &&& 0x3F).toNat with
  | some input => some input
  | none => byteAt data (node.start - 1)

/-- `StateOneTrans::OutputOf`. -/
def oneOutput (data : Bytes) (node : Node) : Option UInt64 :=
  if outputPackSize node.sizes = 0 then some 0
  else do
    let out ← unpackUint data
      (node.start - inputLen node.state - 1 - transitionPackSize node.sizes -
      outputPackSize node.sizes) (outputPackSize node.sizes)
    some (UInt64.ofNat out)

/-- `StateAnyTrans::InputAt`. -/
def anyInputAt (data : Bytes) (node : Node) (i : ℕ) : Option UInt8 :=
  byteAt data (node.start - ntransLen node.state - 1 - transIndexSize node.ntrans.toNat - i - 1)

/-- `StateAnyTrans::OutputAt`. -/
def anyOutputAt (data : Bytes) (node : Node) (i : ℕ) : Option UInt64 :=
  if outputPackSize node.sizes = 0 then some 0
  else do
    let out ← unpackUint data (node.start - ntransLen node.state - 1 -
      totalTransSize node.sizes node.ntrans.toNat - i * outputPackSize node.sizes -
      outputPackSize node.sizes) (outputPackSize node.sizes)
    some (UInt64.ofNat out)

/-- `StateAnyTrans::TransAddr`. -/
def anyTransAddr (data : Bytes) (node : Node) (i : ℕ) : Option ℕ :=
  unpackDelta data (node.start - ntransLen node.state - 1 - transIndexSize node.ntrans.toNat -
    node.ntrans.toNat - i * transitionPackSize node.sizes - transitionPackSize node.sizes)
    (transitionPackSize node.sizes) node.endAddr

/-- `Node::TransAt`. -/
def transAt (data : Bytes) (node : Node) (i : ℕ) : Option Transition :=
  if node.state &&& 0xC0 = 0xC0 then do
    let inp ← node.oneInput data
    some ⟨inp, 0, wrap (node.endAddr - 1)⟩
  else if node.state &&& 0xC0 = 0x80 then do
    let inp ← node.oneInput data
    let out ← node.oneOutput data
    let addr ← unpackDelta data
      (node.start - inputLen node.state - 1 - transitionPackSize node.sizes)
      (transitionPackSize node.sizes) node.endAddr
    some ⟨inp, out, addr⟩
  else do
    let inp ← node.anyInputAt data i
    let out ← node.anyOutputAt data i
    let addr ← node.anyTransAddr data i
    some ⟨inp, out, addr⟩

/-- The loop of `StateAnyTrans::FindInput`, with `n` inputs left: inputs are written backwards. -/
def findInputFrom (data : Bytes) (b : UInt8) : ℕ → ℕ → Option (Option ℕ)
  | _, 0 => some none
  | i, n + 1 => do
    let c ← data[i]?
    if c = b then some (some n) else findInputFrom data b (i + 1) n

/-- `StateAnyTrans::FindInput`. -/
def anyFindInput (data : Bytes) (node : Node) (b : UInt8) : Option (Option ℕ) :=
  if transIndexThreshold < node.ntrans.toNat then do
    let i ← byteAt data (node.start - ntransLen node.state - 1 - 256 + b.toNat)
    some (if node.ntrans < i then none else some i.toNat)
  else findInputFrom data b (wrap (node.start - ntransLen node.state - 1 - node.ntrans.toNat))
    node.ntrans.toNat

/-- `Node::FindInput`. -/
def findInput (data : Bytes) (node : Node) (b : UInt8) : Option (Option ℕ) :=
  if node.state &&& 0xC0 = 0xC0 ∨ node.state &&& 0xC0 = 0x80 then do
    let inp ← node.oneInput data
    some (if inp = b then some 0 else none)
  else node.anyFindInput data b

/-- `Node::FinalOutput`. -/
def output (node : Node) : UInt64 := if node.isFinal then node.finalOutput else 0

end Node

end Infinity.Fst
