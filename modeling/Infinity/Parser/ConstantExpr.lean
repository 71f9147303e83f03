import Infinity.Parser.Serialize

/-! # Literals and their codec (`parser/expr/constant_expr.cpp`)

A literal is the default value of a column. Arrays nest, so that the writer, the size function
and the reader recurse.
-/

namespace Infinity.Parser

open Foundations

/-- `LiteralType`. -/
inductive LiteralType where
  | boolean | double | string | integer | null | date | time | dateTime | timestamp
  | integerArray | doubleArray | subArrayArray | interval | longSparseArray | doubleSparseArray
  | emptyArray
  deriving DecidableEq, Repr

def LiteralType.all : List LiteralType :=
  [.boolean, .double, .string, .integer, .null, .date, .time, .dateTime, .timestamp,
   .integerArray, .doubleArray, .subArrayArray, .interval, .longSparseArray, .doubleSparseArray,
   .emptyArray]

instance : Pod LiteralType :=
  Pod.ofList 4 LiteralType.all (by intro t; cases t <;> decide) (by decide)

/-- `TimeUnit`, the unit of an interval. -/
inductive TimeUnit where
  | year | month | day | hour | minute | second | invalidUnit
  deriving DecidableEq, Repr

def TimeUnit.all : List TimeUnit := [.year, .month, .day, .hour, .minute, .second, .invalidUnit]

instance : Pod TimeUnit := Pod.ofList 4 TimeUnit.all (by intro t; cases t <;> decide) (by decide)

/-- The text behind a `char *`: it ends at the first zero byte, so it holds none. -/
abbrev CString := { s : Bytes // (0 : UInt8) ∉ s }

/-- `strdup(s.c_str())`. -/
def CString.dup (s : Bytes) : CString :=
  ⟨s.takeWhile (· != 0), fun h => by simpa using List.mem_takeWhile_imp h⟩

@[simp] theorem CString.dup_val (s : CString) : CString.dup s.val = s := by
  apply Subtype.ext
  refine List.takeWhile_eq_self_iff.mpr fun b hb => ?_
  have : b ≠ 0 := fun h => s.property (h ▸ hb)
  simpa using this

/-- `ConstantExpr`, with the payload that its literal type selects. A double is its 64 bits. -/
inductive ConstantExpr where
  | boolean (value : Bool)
  | double (value : UInt64)
  | string (value : CString)
  | integer (value : Int64)
  | null
  | date (value : CString)
  | time (value : CString)
  | dateTime (value : CString)
  | timestamp (value : CString)
  | integerArray (values : List Int64)
  | doubleArray (values : List UInt64)
  | subArrayArray (items : List ConstantExpr)
  | interval (unit : TimeUnit) (value : Int64)
  | longSparseArray (indices : List Int64) (values : List Int64)
  | doubleSparseArray (indices : List Int64) (values : List UInt64)
  | emptyArray
  deriving Repr

/-! ## Arrays behind a 64-bit count -/

def writeArray {α : Type} (w : α → Bytes) (as : List α) : Bytes :=
  writePod (UInt64.ofNat as.length) ++ as.flatMap w

/-- The count is read into a `size_t`. -/
def readArray {α : Type} (r : Read α) : Read (List α) := do
  let len ← readPod UInt64
  readMany len.toNat r

@[simp] theorem length_writeArray {α : Type} (w : α → Bytes) (as : List α) :
    (writeArray w as).length = 8 + (as.flatMap w).length := by
  simp [writeArray, Pod.width]

theorem readArray_writeArray {α : Type} {p : ℕ} {r : Read α} {w : α → Bytes} {as : List α}
    (hcount : as.length < sizeLimit)
    (h : ∀ a ∈ as, ∀ q, p + 8 ≤ q → q + (w a).length ≤ p + (writeArray w as).length →
    ReadsAt q r (w a) a) : ReadsAt p (readArray r) (writeArray w as) as := by
  have hlen : (UInt64.ofNat as.length).toNat = as.length := by
    unfold sizeLimit at hcount
    simp only [UInt64.toNat_ofNat']
    omega
  refine .bind (.readPod _) ?_
  rw [hlen]
  refine .many fun a ha q hq hq' => ?_
  simp only [length_writePod, Pod.width] at hq hq'
  exact h a ha q hq (by rw [length_writeArray]; omega)

/-- An array of plain values. -/
theorem readArray_writePod {α : Type} [Pod α] {p : ℕ} {as : List α} (hpos : 0 < Pod.width α)
    (h : (writeArray (writePod (α := α)) as).length < sizeLimit) :
    ReadsAt p (readArray (readPod α)) (writeArray writePod as) as := by
  rw [length_writeArray] at h
  have hle := length_le_flatMap (w := writePod (α := α)) (fun a => by simpa using hpos) as
  exact readArray_writeArray (by omega) fun a _ q _ _ => .readPod a

namespace ConstantExpr

/-- `literal_type_`. -/
def literalType : ConstantExpr → LiteralType
  | .boolean _ => .boolean
  | .double _ => .double
  | .string _ => .string
  | .integer _ => .integer
  | .null => .null
  | .date _ => .date
  | .time _ => .time
  | .dateTime _ => .dateTime
  | .timestamp _ => .timestamp
  | .integerArray _ => .integerArray
  | .doubleArray _ => .doubleArray
  | .subArrayArray _ => .subArrayArray
  | .interval .. => .interval
  | .longSparseArray .. => .longSparseArray
  | .doubleSparseArray .. => .doubleSparseArray
  | .emptyArray => .emptyArray

/-! ## Codec -/

mutual

/-- The payload part of `ConstantExpr::GetSizeInBytes`, in wrapping 32-bit arithmetic. -/
def payloadSize : ConstantExpr → Int32
  | .boolean _ => Int32.ofNat 1
  | .double _ => Int32.ofNat 8
  | .string s => Int32.ofNat (4 + s.val.length)
  | .integer _ => Int32.ofNat 8
  | .null | .emptyArray => Int32.ofNat 0
  | .date s | .time s | .dateTime s | .timestamp s => Int32.ofNat (4 + s.val.length)
  | .integerArray values => Int32.ofNat 8 + Int32.ofNat (8 * values.length)
  | .doubleArray values => Int32.ofNat 8 + Int32.ofNat (8 * values.length)
  | .subArrayArray items => Int32.ofNat 8 + itemsSize items
  | .longSparseArray indices values =>
    Int32.ofNat (8 + 8 * indices.length) + Int32.ofNat (8 + 8 * values.length)
  | .doubleSparseArray indices values =>
    Int32.ofNat (8 + 8 * indices.length) + Int32.ofNat (8 + 8 * values.length)
  | .interval .. => Int32.ofNat 4 + Int32.ofNat 8

def itemsSize : List ConstantExpr → Int32
  | [] => 0
  | e :: es => (Int32.ofNat 4 + payloadSize e) + itemsSize es

end

/-- `ConstantExpr::GetSizeInBytes`. -/
def getSizeInBytes (e : ConstantExpr) : Int32 := Int32.ofNat 4 + payloadSize e

mutual

/-- The payload part of `ConstantExpr::WriteAdv`. -/
def payload : ConstantExpr → Bytes
  | .boolean b => writePod b
  | .double d => writePod d
  | .string s => writeString s.val
  | .integer i => writePod i
  | .null | .emptyArray => []
  | .date s | .time s | .dateTime s | .timestamp s => writeString s.val
  | .integerArray values => writeArray writePod values
  | .doubleArray values => writeArray writePod values
  | .subArrayArray items => writePod (UInt64.ofNat items.length) ++ writeItems items
  | .interval unit value => writePod unit ++ writePod value
  | .longSparseArray indices values => writeArray writePod indices ++ writeArray writePod values
  | .doubleSparseArray indices values => writeArray writePod indices ++ writeArray writePod values

def writeItems : List ConstantExpr → Bytes
  | [] => []
  | e :: es => (writePod e.literalType ++ payload e) ++ writeItems es

end

/-- `ConstantExpr::WriteAdv`. -/
def writeAdv (e : ConstantExpr) : Bytes := writePod e.literalType ++ payload e

/-- The switch of `ConstantExpr::ReadAdv`; `item` reads one item of a nested array. -/
def readPayload (item : Read ConstantExpr) : LiteralType → Read ConstantExpr
  | .boolean => do let b ← readPod Bool; pure (.boolean b)
  | .double => do let d ← readPod UInt64; pure (.double d)
  | .string => do let s ← readString; pure (.string (CString.dup s))
  | .integer => do let i ← readPod Int64; pure (.integer i)
  | .null => pure .null
  | .emptyArray => pure .emptyArray
  | .date => do let s ← readString; pure (.date (CString.dup s))
  | .time => do let s ← readString; pure (.time (CString.dup s))
  | .dateTime => do let s ← readString; pure (.dateTime (CString.dup s))
  | .timestamp => do let s ← readString; pure (.timestamp (CString.dup s))
  | .integerArray => do let values ← readArray (readPod Int64); pure (.integerArray values)
  | .doubleArray => do let values ← readArray (readPod UInt64); pure (.doubleArray values)
  | .subArrayArray => do let items ← readArray item; pure (.subArrayArray items)
  | .interval => do
    let unit ← readPod TimeUnit
    let value ← readPod Int64
    pure (.interval unit value)
  | .longSparseArray => do
    let indices ← readArray (readPod Int64)
    let values ← readArray (readPod Int64)
    pure (.longSparseArray indices values)
  | .doubleSparseArray => do
    let indices ← readArray (readPod Int64)
    let values ← readArray (readPod UInt64)
    pure (.doubleSparseArray indices values)

/-- `ConstantExpr::ReadAdv` up to a nesting depth. `ptrEnd` is where the caller says the literal
ends at the latest; the items of a nested array get the same end. -/
def readTo (ptrEnd : ℤ) : ℕ → Read ConstantExpr
  | 0 => fun _ => .error .outOfBuffer
  | depth + 1 => do
    let type ← readPod LiteralType
    let e ← readPayload (readTo ptrEnd depth) type
    let ptr ← tell
    if ptrEnd - ptr < 0 then
      raise (.parser "ptr goes out of range when reading constant expression")
    else pure e

/-- `ConstantExpr::ReadAdv`. Every level of nesting takes at least the four bytes of a literal
type, so the length of what is left bounds the depth. -/
def readAdv (maxBytes : ℤ) : Read ConstantExpr := fun s =>
  readTo (s.pos + maxBytes) (s.rest.length + 1) s

mutual

def payloadCount : ConstantExpr → ℕ
  | .boolean _ => 1
  | .double _ | .integer _ => 8
  | .null | .emptyArray => 0
  | .string s | .date s | .time s | .dateTime s | .timestamp s => 4 + s.val.length
  | .integerArray values => 8 + 8 * values.length
  | .doubleArray values => 8 + 8 * values.length
  | .subArrayArray items => 8 + itemsCount items
  | .longSparseArray indices values => 8 + 8 * indices.length + (8 + 8 * values.length)
  | .doubleSparseArray indices values => 8 + 8 * indices.length + (8 + 8 * values.length)
  | .interval .. => 12

def itemsCount : List ConstantExpr → ℕ
  | [] => 0
  | e :: es => 4 + payloadCount e + itemsCount es

end

def byteCount (e : ConstantExpr) : ℕ := 4 + e.payloadCount

/-! ## Sizes -/

theorem length_flatMap_writePod {α : Type} [Pod α] (as : List α) :
    (as.flatMap writePod).length = Pod.width α * as.length := by
  simp [List.length_flatMap, Nat.mul_comm]

theorem length_writeAdv (e : ConstantExpr) : e.writeAdv.length = 4 + e.payload.length := by
  simp [writeAdv, Pod.width]

mutual

theorem length_payload : ∀ e : ConstantExpr, e.payload.length = e.payloadCount
  | .boolean _ | .double _ | .string _ | .integer _ | .null | .emptyArray | .date _ | .time _
  | .dateTime _ | .timestamp _ | .interval .. => by
    simp [payloadCount, payload, stringSize, Pod.width]
  | .integerArray _ | .doubleArray _ | .longSparseArray .. | .doubleSparseArray .. => by
    simp only [payloadCount, payload, length_writeArray, List.length_append,
      length_flatMap_writePod, Pod.width]
  | .subArrayArray items => by
    rw [payloadCount, payload, List.length_append, length_writeItems items]
    simp [Pod.width]

theorem length_writeItems : ∀ es : List ConstantExpr, (writeItems es).length = itemsCount es
  | [] => rfl
  | e :: es => by
    rw [itemsCount, writeItems, List.length_append, List.length_append, length_payload e,
      length_writeItems es]
    simp [Pod.width]

end

mutual

theorem payloadSize_eq : ∀ e : ConstantExpr, e.payloadSize = Int32.ofNat e.payload.length
  | .boolean _ | .double _ | .string _ | .integer _ | .null | .emptyArray | .date _ | .time _
  | .dateTime _ | .timestamp _ | .interval .. => by
    simp [payloadSize, payload, stringSize, Pod.width]
  | .integerArray _ | .doubleArray _ | .longSparseArray .. | .doubleSparseArray .. => by
    simp only [payloadSize, payload, length_writeArray, List.length_append,
      length_flatMap_writePod, Pod.width, Int32.ofNat_add]
  | .subArrayArray items => by
    rw [payloadSize, payload, itemsSize_eq items, List.length_append, Int32.ofNat_add]
    simp [Pod.width]

theorem itemsSize_eq : ∀ es : List ConstantExpr, itemsSize es = Int32.ofNat (writeItems es).length
  | [] => rfl
  | e :: es => by
    rw [itemsSize, writeItems, payloadSize_eq e, itemsSize_eq es]
    simp [Pod.width, Int32.add_assoc]

end

theorem length_writeAdv_eq (e : ConstantExpr) : e.writeAdv.length = e.byteCount := by
  rw [length_writeAdv, length_payload, byteCount]

/-- The size is the number of bytes written, cut to 32 bits. -/
theorem getSizeInBytes_eq (e : ConstantExpr) :
    e.getSizeInBytes = Int32.ofNat e.writeAdv.length := by
  rw [getSizeInBytes, payloadSize_eq, length_writeAdv, Int32.ofNat_add]

/-! ## Round trip -/

theorem writeItems_eq : ∀ es : List ConstantExpr, writeItems es = es.flatMap writeAdv
  | [] => rfl
  | e :: es => by rw [writeItems, writeItems_eq es]; rfl

theorem payload_subArrayArray (items : List ConstantExpr) :
    (subArrayArray items).payload = writeArray writeAdv items := by
  rw [payload, writeItems_eq]
  rfl

theorem readDup_reads {p : ℕ} {s : CString} {f : CString → ConstantExpr}
    (h : (writeString s.val).length < sizeLimit) :
    ReadsAt p (do let s ← readString; pure (f (CString.dup s))) (writeString s.val) (f s) := by
  have hs : s.val.length < sizeLimit := by
    rw [length_writeString, stringSize] at h
    omega
  refine (readString_writeString hs).last ?_
  rw [CString.dup_val]
  exact .pure _

/-- The switch reads a payload back when the item reader reads back every item of it. -/
theorem readPayload_reads {p : ℕ} {item : Read ConstantExpr} (e : ConstantExpr)
    (hlen : e.payload.length < sizeLimit)
      (hitem : ∀ items, e = subArrayArray items → ∀ a ∈ items, ∀ q, q + a.writeAdv.length ≤
    p + e.payload.length → ReadsAt q item a.writeAdv a) :
    ReadsAt p (readPayload item e.literalType) e.payload e := by
  cases e with
  | boolean b => exact (ReadsAt.readPod b).last (ReadsAt.pure _)
  | double d => exact (ReadsAt.readPod d).last (ReadsAt.pure _)
  | integer i => exact (ReadsAt.readPod i).last (ReadsAt.pure _)
  | null | emptyArray => exact .pure _
  | string s | date s | time s | dateTime s | timestamp s => exact readDup_reads hlen
  | integerArray values | doubleArray values =>
    exact (readArray_writePod (by decide) hlen).last (.pure _)
  | interval unit value =>
    exact (ReadsAt.readPod unit).bind ((ReadsAt.readPod value).last (ReadsAt.pure _))
  | longSparseArray indices values | doubleSparseArray indices values =>
    rw [payload, List.length_append] at hlen
    exact (readArray_writePod (by decide) (by omega)).bind
      ((readArray_writePod (by decide) (by omega)).last (.pure _))
  | subArrayArray items =>
    rw [payload_subArrayArray] at hlen hitem ⊢
    refine .last (readArray_writeArray ?_ fun a ha q _ hq => ?_) (.pure _)
    · have hpos : ∀ a : ConstantExpr, 0 < a.writeAdv.length := by
        intro a
        rw [length_writeAdv]
        omega
      have := length_le_flatMap hpos items
      rw [length_writeArray] at hlen
      omega
    · exact hitem items rfl a ha q hq

/-- The reader with depth to spare; the induction is on the depth, and an item is shorter than
its array by the bytes of the array's type and count. -/
theorem readTo_reads {ptrEnd : ℤ} : ∀ {depth p : ℕ} {e : ConstantExpr}, e.writeAdv.length < depth →
    e.writeAdv.length < sizeLimit → (p + e.writeAdv.length : ℤ) ≤ ptrEnd →
    ReadsAt p (readTo ptrEnd depth) e.writeAdv e
  | depth + 1, p, e, hdepth, hlim, hend => by
    rw [length_writeAdv] at hdepth hlim hend
    refine (ReadsAt.readPod e.literalType).bind (ReadsAt.last (readPayload_reads e ?_ ?_) ?_)
    · omega
    · rintro items rfl a ha q hq
      have hle : a.writeAdv.length + 8 ≤ (subArrayArray items).payload.length := by
        rw [payload_subArrayArray, length_writeArray]
        have := length_le_flatMap_of_mem (w := writeAdv) ha
        omega
      simp only [length_writePod, Pod.width] at hq
      exact readTo_reads (by omega) (by omega) (by push_cast at hend ⊢; omega)
    · refine .tell_bind ?_
      simp only [length_writePod, Pod.width]
      rw [if_neg (by push_cast at hend ⊢; omega)]
      exact .pure _

/-- **Every literal of fewer than `2 ^ 31` bytes is read back.** -/
theorem readAdv_writeAdv {p : ℕ} {m : ℤ} {e : ConstantExpr}
    (hlim : e.writeAdv.length < sizeLimit) (hm : e.writeAdv.length ≤ m) :
    ReadsAt p (readAdv m) e.writeAdv e := by
  intro rest
  have hend : (p + e.writeAdv.length : ℤ) ≤ p + m := by omega
  exact readTo_reads (by rw [List.length_append]; omega) hlim hend rest

mutual

/-- What `ConstantExpr::ToString` raises, if it does. -/
def toStringError : ConstantExpr → Option Exn
  | .interval .invalidUnit _ => some (.parser "Invalid interval type.")
  | .integerArray [] => some (.parser "Invalid long array length")
  | .doubleArray [] => some (.parser "Invalid double array length")
  | .subArrayArray [] => some (.parser "Invalid array array length")
  | .subArrayArray items => toStringErrors items
  -- as many values are printed as there are indices
  | .doubleSparseArray indices values =>
    if values.length < indices.length then some (.undefined "sparse values past their end")
    else none
  | _ => none

/-- The first error among the items of an array. -/
def toStringErrors : List ConstantExpr → Option Exn
  | [] => none
  | e :: es => (toStringError e).or (toStringErrors es)

end

end ConstantExpr

end Infinity.Parser
