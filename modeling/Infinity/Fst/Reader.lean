import Infinity.Fst.Builder

/-! # The reader of the term dictionary (`storage/invertedindex/fst/fst.cppm`)

A dictionary is opened from its bytes. `Get` follows the bytes of a key from the root, and
`FstStream` walks over all keys between two bounds, with a stack of nodes and the key so far.

* `Fst.make`, `Fst.get`: opening a dictionary and looking up a key.
* `FstStream.reset`, `FstStream.resetPrefix`, `FstStream.next`: the walk. An undefined read is
  `none`. -/

set_option linter.dupNamespace false

namespace Infinity.Fst

open Foundations

/-! ## Opening -/

/-- `ReadU64LE`. -/
def readU64LE (data : Bytes) (i : ℕ) : ℕ := leValue ((data.drop i).take 8)

/-- `ReadU32LE`. -/
def readU32LE (data : Bytes) (i : ℕ) : ℕ := leValue ((data.drop i).take 4)

/-- `Meta`. -/
structure Meta where
  version : ℕ
  rootAddr : ℕ
  ty : ℕ
  len : ℕ
  checksum : ℕ
  deriving DecidableEq, Repr

/-- `Fst`. -/
structure Fst where
  info : Meta
  data : Bytes
  deriving DecidableEq, Repr

namespace Fst

/-- `Fst::Fst`. -/
def make (data : Bytes) : Except FstError Fst :=
  if data.length < 36 then .error .format
  else if readU64LE data 0 ≠ 3 then .error .version
  else
    let e := data.length - 4
    let rootAddr := readU64LE data (e - 8)
    if (rootAddr = emptyAddress ∧ data.length ≠ 36) ∧
      rootAddr + 21 ≠ data.length then .error .format
    else .ok ⟨⟨readU64LE data 0, rootAddr, readU64LE data 8, readU64LE data (e - 16),
      readU32LE data e⟩, data⟩

/-- `Fst::Len`. -/
def len (fst : Fst) : ℕ := fst.info.len

/-- `Fst::Root`. -/
def root (fst : Fst) : Option Node := Node.make fst.data fst.info.rootAddr

/-- The loop of `Get`: the node behind some bytes, with the outputs on the way. -/
def walk (data : Bytes) : Node → Bytes → UInt64 → Option (Option (Node × UInt64))
  | node, [], out => some (some (node, out))
  | node, b :: bs, out => do
    match ← node.findInput data b with
    | none => some none
    | some i =>
      let t ← node.transAt data i
      let next ← Node.make data t.addr
      walk data next bs (out + t.out)

/-- The end of `Get`: the value of a node that is final. -/
def value : Option (Node × UInt64) → Option UInt64
  | some (node, out) => if node.isFinal then some (out + node.output) else none
  | none => none

/-- `Get`: the value, if it returns true. -/
def get (fst : Fst) (key : Bytes) : Option (Option UInt64) := do
  let root ← fst.root
  let found ← walk fst.data root key 0
  some (value found)

end Fst

/-! ## Bounds -/

/-- `Bound::BoundType`. -/
inductive BoundType where
  | included
  | excluded
  | unbounded
  deriving DecidableEq, Repr

/-- `Bound`. -/
structure Bound where
  ty : BoundType
  key : Bytes
  deriving DecidableEq, Repr

/-- `memcmp` over the common length. -/
def memcmp : Bytes → Bytes → Ordering
  | a :: x, b :: y => if a < b then .lt else if b < a then .gt else memcmp x y
  | _, _ => .eq

/-- `CompareBytes`. -/
def compareBytes (x y : Bytes) : Ordering :=
  match memcmp x y with
  | .eq => if x.length < y.length then .lt else if y.length < x.length then .gt else .eq
  | r => r

namespace Bound

/-- `Bound::ExceededBy`. -/
def exceededBy (bound : Bound) (inp : Bytes) : Bool :=
  match bound.ty with
  | .unbounded => false
  | .included => compareBytes inp bound.key = .gt
  | .excluded => compareBytes inp bound.key ≠ .lt

/-- `Bound::IsEmpty`. -/
def isEmpty (bound : Bound) : Bool := bound.ty = .unbounded || bound.key = []

/-- `Bound::IsInclusive`. -/
def isInclusive (bound : Bound) : Bool := bound.ty ≠ .excluded

end Bound

/-! ## Walks -/

/-- `StreamState`. -/
structure StreamState where
  node : Node
  trans : ℕ
  out : UInt64
  deriving DecidableEq, Repr

/-- `FstStream`, with the top of the stack first. -/
structure FstStream where
  fst : Fst
  endAt : Bound
  inp : Bytes
  stack : List StreamState
  deriving DecidableEq, Repr

namespace FstStream

/-- The loop of `SeekMin` over the transitions of a node, from number `j` with `n` left. -/
def firstAbove (data : Bytes) (node : Node) (b : UInt8) : ℕ → ℕ → Option ℕ
  | j, 0 => some j
  | j, n + 1 => do
    let t ← node.transAt data j
    if b < t.inp then some j else firstAbove data node b (j + 1) n

/-- The end of `SeekMin`, when all bytes of the bound were found. -/
def seekFound (data : Bytes) (inclusive : Bool) (out : UInt64) (inp : Bytes) :
    List StreamState → Option (Bytes × List StreamState)
  | [] => some (inp, [])
  | state :: stack =>
    if inclusive then some (inp.dropLast, { state with trans := state.trans - 1 } :: stack)
    else do
      let t ← state.node.transAt data (state.trans - 1)
      let next ← Node.make data t.addr
      some (inp, ⟨next, 0, out⟩ :: state :: stack)

/-- The loop of `SeekMin` over the bytes of the bound: the key and the stack. -/
def seek (data : Bytes) (inclusive : Bool) :
    Bytes → Node → UInt64 → Bytes → List StreamState → Option (Bytes × List StreamState)
  | [], _, out, inp, stack => seekFound data inclusive out inp stack
  | b :: key, node, out, inp, stack => do
    match ← node.findInput data b with
    | some i =>
      let t ← node.transAt data i
      let next ← Node.make data t.addr
      seek data inclusive key next (out + t.out) (inp ++ [b]) (⟨node, i + 1, out⟩ :: stack)
    | none =>
      let j ← firstAbove data node b 0 node.ntrans.toNat
      some (inp, ⟨node, j, out⟩ :: stack)

/-- `Reset` with `SeekMin`. -/
def reset (fst : Fst) (min max : Bound) : Option FstStream := do
  let root ← fst.root
  if min.isEmpty then some ⟨fst, max, [], [⟨root, 0, 0⟩]⟩
  else do
    let (inp, stack) ← seek fst.data min.isInclusive min.key root 0 [] []
    some ⟨fst, max, inp, stack⟩

/-- The loop of `Reset` over the bytes of a prefix, from the last one on: the buffer afterwards, and
whether the loop has passed the first byte. -/
def increment : Bytes → Bytes × Bool
  | [] => ([], true)
  | b :: bs =>
    let (rest, carry) := increment bs
    if carry then ((b + 1) :: rest, b + 1 = 0) else (b :: rest, false)

/-- `Reset` with a prefix: the stream, and the caller's buffer afterwards. Both bounds are copied
from the buffer before the loop. -/
def resetPrefix (fst : Fst) (key : Bytes) : Option (FstStream × Bytes) := do
  let (buffer, carry) := increment key
  let stream ← reset fst ⟨.included, key⟩ (if carry then ⟨.unbounded, []⟩ else ⟨.excluded, key⟩)
  some (stream, buffer)

/-- One round of the loop of `Next`: the stream, and whether it returns, with a pair or without. -/
def step (s : FstStream) : Option (FstStream × Option (Option (Bytes × UInt64))) :=
  match s.stack with
  | [] => some (s, some none)
  | state :: stack =>
    if state.node.ntrans.toNat ≤ state.trans then
      if state.node.start ≠ s.fst.info.rootAddr then
        if s.inp = [] then none else some ({ s with inp := s.inp.dropLast, stack }, none)
      else some ({ s with stack }, none)
    else do
      let t ← state.node.transAt s.fst.data state.trans
      let out := state.out + t.out
      let next ← Node.make s.fst.data t.addr
      let inp := s.inp ++ [t.inp]
      if s.endAt.exceededBy inp then some ({ s with inp, stack := [] }, some none)
      else
        some ({ s with inp, stack := ⟨next, 0, out⟩ :: { state with trans := state.trans + 1 } ::
          stack }, if next.isFinal then some (some (inp, out + next.output)) else none)

/-- `Next`, with a bound on the rounds. -/
def next : ℕ → FstStream → Option (FstStream × Option (Bytes × UInt64))
  | 0, _ => none
  | n + 1, s => do
    match ← s.step with
    | (s, none) => next n s
    | (s, some result) => some (s, result)

/-- The pairs that `Next` gives until it returns false, with a bound on the rounds. -/
def collect : ℕ → FstStream → Option (List (Bytes × UInt64))
  | 0, _ => none
  | n + 1, s => do
    match ← s.next n with
    | (_, none) => some []
    | (s, some e) => do
      let rest ← collect n s
      some (e :: rest)

end FstStream

end Infinity.Fst
