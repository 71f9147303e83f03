import Infinity.Parser.DataType

/-! # Data blocks (`storage/column_vector/column_vector.cpp`, `storage/data_block.cpp`)

The rows of an append travel in a data block: one column vector a column, each with the fixed
part of its values, the heaps their variable parts live in, and a bitmask of nulls.

* `ColumnVector.readAdv_writeAdv`: a vector whose type is serializable and whose heaps fit the
  chunk of the heap that the reader fills is read back.
* `DataBlock.readAdv_writeAdv`, `DataBlock.readAdv_fails`: the same for whole blocks.
-/

namespace Infinity.Storage

open Foundations Infinity.Parser List

variable {bs heap : Bytes} {p : ℕ} {m : ℤ}

/-! ## Bitmasks -/

/-- `BitmaskBuffer::UnitCount`. -/
def unitCount (capacity : ℕ) : ℕ := (capacity + 63) / 64

/-- `UNIT_MAX`, a word of ones. -/
def unitMax : UInt64 := 0xFFFFFFFFFFFFFFFF

/-- `Bitmask` as its words; a null data pointer stands for words of ones. -/
structure Bitmask where
  count : ℕ
  words : List UInt64
  count_lt : count < sizeLimit
  count_pow : count &&& (count - 1) = 0
  words_length : words.length = unitCount count
  deriving DecidableEq, Repr

namespace Bitmask

/-- `Bitmask::IsAllTrue`. -/
def isAllTrue (b : Bitmask) : Bool := b.words.all (· == unitMax)

/-- `Bitmask::GetSizeInBytes`. -/
def getSizeInBytes (b : Bitmask) : Int32 :=
  Int32.ofNat (if b.isAllTrue then 0 else unitCount b.count * 8) + Int32.ofNat (4 + 1)

/-- `Bitmask::WriteAdv`. -/
def writeAdv (b : Bitmask) : Bytes := writePod (Int32.ofNat b.count) ++ (writePod b.isAllTrue ++
    if b.isAllTrue then [] else b.words.flatMap writePod)

def byteCount (b : Bitmask) : ℕ := 5 + if b.isAllTrue then 0 else unitCount b.count * 8

/-- `Bitmask::Make` with the words already known: the count has to be a power of two. -/
def make (count : ℕ) (words : List UInt64) : Read Bitmask :=
  if hpow : count &&& (count - 1) = 0 then
    if h : count < sizeLimit ∧ words.length = unitCount count then
      pure ⟨count, words, h.1, hpow, h.2⟩
    else raise (.undefined "bitmask buffer")
  else raise (.unrecoverable "Capacity need to be N power of 2.")

/-- `Bitmask::ReadAdv`. -/
def readAdv : Read Bitmask := do
  let count ← readPod Int32
  let allTrue ← readPod Bool
  if allTrue then make (toSizeT count) (List.replicate (unitCount (toSizeT count)) unitMax)
  else
    let words ← readMany (unitCount (toSizeT count)) (readPod UInt64)
    make (toSizeT count) words

theorem make_eq (b : Bitmask) : make b.count b.words = pure b := by
  rw [make, dif_pos b.count_pow, dif_pos ⟨b.count_lt, b.words_length⟩]

theorem length_flatMap_words (b : Bitmask) :
    (b.words.flatMap writePod).length = unitCount b.count * 8 := by
  simp [length_flatMap, Pod.width, b.words_length]

theorem length_writeAdv_eq (b : Bitmask) : b.writeAdv.length = b.byteCount := by
  cases hall : b.isAllTrue
  all_goals simp [writeAdv, byteCount, hall, Pod.width, -length_flatMap, length_flatMap_words]
  omega

theorem getSizeInBytes_eq (b : Bitmask) : b.getSizeInBytes = Int32.ofNat b.writeAdv.length := by
  rw [getSizeInBytes, length_writeAdv_eq, byteCount, ← Int32.ofNat_add]
  congr 1
  omega

theorem words_eq_replicate {b : Bitmask} (h : b.isAllTrue) :
    List.replicate (unitCount b.count) unitMax = b.words := by
  rw [← b.words_length]
  refine (eq_replicate_iff.mpr ⟨rfl, fun w hw => ?_⟩).symm
  simpa using all_eq_true.mp h w hw

theorem readAdv_writeAdv (b : Bitmask) : ReadsAt p readAdv b.writeAdv b := by
  refine .pod (.pod ?_)
  rw [toSizeT_ofNat b.count_lt]
  cases hall : b.isAllTrue
  · rw [← b.words_length]
    refine .last (.many fun w _ q _ _ => .readPod w) ?_
    rw [make_eq]
    exact .pure b
  · rw [words_eq_replicate hall, make_eq]
    exact .pure b

end Bitmask

/-! ## Heaps -/

/-- `DEFAULT_FIXLEN_CHUNK_SIZE`. -/
def fixlenChunkSize : ℕ := 65536

/-- `DEFAULT_FIXLEN_TENSOR_CHUNK_SIZE`. -/
def fixlenTensorChunkSize : ℕ := 512 * 1024 * 4

/-- A `FixHeapManager` as `VectorBuffer::Initialize` sets it up: the size of a chunk and whether
one allocation may span chunks. -/
structure HeapKind where
  chunkSize : ℕ
  allowCrossChunk : Bool
  deriving DecidableEq, Repr

/-- The heap behind `fix_heap_mgr_` of a vector of a logical type. -/
def heapKind : LogicalType → Option HeapKind
  | .varchar | .tensorArray => some ⟨fixlenChunkSize, true⟩
  | .tensor => some ⟨fixlenTensorChunkSize, false⟩
  | .sparse => some ⟨fixlenChunkSize, false⟩
  | _ => none

/-- The heap behind `fix_heap_mgr_1_`. -/
def heapKind1 : LogicalType → Option HeapKind
  | .tensorArray => some ⟨fixlenTensorChunkSize, false⟩
  | _ => none

/-- What one allocation of an empty heap can take: `FixHeapManager::Allocate` refuses more than a
chunk unless allocations may span chunks. -/
def HeapKind.Fits (k : HeapKind) (nbytes : ℕ) : Prop :=
  k.allowCrossChunk = true ∨ nbytes ≤ k.chunkSize

instance (k : HeapKind) (nbytes : ℕ) : Decidable (k.Fits nbytes) :=
  inferInstanceAs (Decidable (_ ∨ _))

/-- A heap as one run of bytes behind its length; a vector without the heap writes nothing. -/
def writeHeap (k : Option HeapKind) (heap : Bytes) : Bytes :=
  match k with
  | none => []
  | some _ => writeString heap

/-- The bytes are put back with one `AppendToHeap`. -/
def readHeap (k : Option HeapKind) : Read Bytes :=
  match k with
  | none => pure []
  | some k => do
    let heapLen ← readPod Int32
    if heapLen ≤ 0 then pure []
    else if k.Fits heapLen.toNatClampNeg then readBytes heapLen.toNatClampNeg
    else raise (.unrecoverable ("Attempt to allocate memory with size: "
      ++ toString heapLen.toNatClampNeg ++ " as the tensor heap"))

/-- The heap holds something only when the vector has it. -/
def HeapAllowed (k : Option HeapKind) (heap : Bytes) : Prop := k = none → heap = []

/-- The heap can be put back in one allocation. -/
def HeapFits (k : Option HeapKind) (heap : Bytes) : Prop := ∀ k' ∈ k, k'.Fits heap.length

theorem not_le_zero_ofNat {n : ℕ} (h : n < sizeLimit) (hpos : 0 < n) : ¬ Int32.ofNat n ≤ 0 := by
  rw [Int32.le_iff_toInt_le, Int32.toInt_ofNat_of_lt h]
  simp
  omega

variable {k : Option HeapKind}

theorem readHeap_writeHeap (hallowed : HeapAllowed k heap) (hfits : HeapFits k heap)
    (hlim : heap.length < sizeLimit) : ReadsAt p (readHeap k) (writeHeap k heap) heap := by
  cases k with
  | none =>
    rw [hallowed rfl]
    exact .pure _
  | some k =>
    refine .pod ?_
    rcases Nat.eq_zero_or_pos heap.length with h0 | hpos
    · rw [eq_nil_of_length_eq_zero h0]
      exact .pure _
    · rw [if_neg (not_le_zero_ofNat hlim hpos), toNatClampNeg_ofNat hlim, if_pos (hfits k rfl)]
      exact .readBytes rfl

theorem readHeap_fails (hfits : ¬ HeapFits k heap) (hlim : heap.length < sizeLimit) :
    FailsAt p (readHeap k) (writeHeap k heap) := by
  cases k with
  | none => exact absurd (by simp [HeapFits]) hfits
  | some k =>
    have hk : ¬ k.Fits heap.length := fun h => hfits (by simpa [HeapFits] using h)
    have hpos : 0 < heap.length := by
      by_contra h
      exact hk (.inr (by omega))
    refine .tail (.readPod _) ?_
    rw [if_neg (not_le_zero_ofNat hlim hpos), toNatClampNeg_ofNat hlim, if_neg hk]
    exact .raise _

/-! ## Column vectors -/

/-- `ColumnVectorType`. -/
inductive ColumnVectorType where
  | invalid | flat | constant | compactBit | heterogeneous
  deriving DecidableEq, Repr

def ColumnVectorType.all : List ColumnVectorType :=
  [.invalid, .flat, .constant, .compactBit, .heterogeneous]

instance : Pod ColumnVectorType :=
  Pod.ofList 1 ColumnVectorType.all (by intro t; cases t <;> decide) (by decide)

/-- `DEFAULT_VECTOR_SIZE`, the capacity of the vectors of a block. -/
def vectorSize : ℕ := 8192

/-- The vector type that `InitializeHelper` settles on for the one that is asked for: a flat vector
of booleans is packed. -/
def vectorTypeOf (t : LogicalType) (asked : ColumnVectorType) : ColumnVectorType :=
  if t = .boolean ∧ asked = .flat then .compactBit else asked

/-- The bytes of the fixed part of `rows` values of `width` bytes. -/
def ColumnVectorType.fixedLength (v : ColumnVectorType) (width rows : ℕ) : ℕ :=
  if v = .compactBit then (rows + 7) / 8 else rows * width

/-- The rows that the buffer of a vector takes: a constant vector has one value. -/
def ColumnVectorType.bufferRows (v : ColumnVectorType) : ℕ :=
  if v = .constant then 1 else vectorSize

/-- The fields of a `ColumnVector`. -/
structure ColumnData where
  dataType : DataType
  vectorType : ColumnVectorType
  tailIndex : ℕ
  /-- The fixed part of the rows, as it lies behind `data_ptr_`. -/
  data : Bytes
  heap : Bytes
  heap1 : Bytes
  nulls : Bitmask
  deriving DecidableEq, Repr

/-- What `ColumnVector::Initialize` and the appends to a vector of a block guarantee: the type can
be stored, the vector is flat, packed if it is of booleans, or a constant, the rows fit the buffer,
and the buffers have the lengths that go with them. -/
structure ColumnData.WellFormed (c : ColumnData) : Prop where
  type_ne : c.dataType.type ≠ .invalid ∧ c.dataType.type ≠ .null ∧ c.dataType.type ≠ .missing
  vector_type : c.vectorType = vectorTypeOf c.dataType.type .flat ∨ c.vectorType = .constant
  tail_le : c.tailIndex ≤ c.vectorType.bufferRows
  data_length : ∃ width ∈ c.dataType.size.toOption,
    c.data.length = c.vectorType.fixedLength width c.tailIndex
  heap_allowed : HeapAllowed (heapKind c.dataType.type) c.heap
  heap1_allowed : HeapAllowed (heapKind1 c.dataType.type) c.heap1

instance (k : Option HeapKind) (heap : Bytes) : Decidable (HeapAllowed k heap) :=
  inferInstanceAs (Decidable (_ → _))

instance (c : ColumnData) : Decidable c.WellFormed := decidable_of_iff
    ((c.dataType.type ≠ .invalid ∧ c.dataType.type ≠ .null ∧ c.dataType.type ≠ .missing) ∧
      (c.vectorType = vectorTypeOf c.dataType.type .flat ∨ c.vectorType = .constant) ∧
      c.tailIndex ≤ c.vectorType.bufferRows ∧
      (∃ width ∈ c.dataType.size.toOption,
        c.data.length = c.vectorType.fixedLength width c.tailIndex) ∧
      HeapAllowed (heapKind c.dataType.type) c.heap ∧
      HeapAllowed (heapKind1 c.dataType.type) c.heap1)
    ⟨fun ⟨a, b, d, e, f, g⟩ => ⟨a, b, d, e, f, g⟩, fun h => ⟨h.1, h.2, h.3, h.4, h.5, h.6⟩⟩

/-- `ColumnVector` of a data block. The writers refuse vectors of another kind than the three that
are left. -/
abbrev ColumnVector := { c : ColumnData // c.WellFormed }

variable {c : ColumnVector}

namespace ColumnVector

/-- What is written behind the data type. -/
def tailBytes (c : ColumnVector) : Bytes :=
  writePod c.val.vectorType ++ (writePod (Int32.ofNat c.val.tailIndex) ++
    (c.val.data ++ (writeHeap (heapKind c.val.dataType.type) c.val.heap ++
      (writeHeap (heapKind1 c.val.dataType.type) c.val.heap1 ++ c.val.nulls.writeAdv))))

/-- The bytes of a heap behind its length. -/
def heapSize (k : Option HeapKind) (heap : Bytes) : ℕ :=
  match k with
  | none => 0
  | some _ => 4 + heap.length

/-- `ColumnVector::GetSizeInBytes`. -/
def getSizeInBytes (c : ColumnVector) : Except Exn Int32 :=
  addSize c.val.dataType.getSizeInBytes
    (.ok (Int32.ofNat 1 + Int32.ofNat 4 + Int32.ofNat c.val.data.length
    + Int32.ofNat (heapSize (heapKind c.val.dataType.type) c.val.heap)
    + Int32.ofNat (heapSize (heapKind1 c.val.dataType.type) c.val.heap1) +
    c.val.nulls.getSizeInBytes))

/-- `ColumnVector::WriteAdv`. -/
def writeAdv (c : ColumnVector) : Except Exn Bytes :=
  if c.val.dataType.type = .hugeInt then
    .error (.unrecoverable "Attempt to serialize huge integer type")
  else writeThen c.val.dataType.writeAdv (.ok c.tailBytes)

/-- `ColumnVector::InitializeHelper` on the reading side; the result is the width of a value. -/
def initializeHelper (t : DataType) (vectorType : ColumnVectorType) : Except Exn ℕ :=
  if t.type = .invalid ∨ vectorType = .invalid then
    .error (.unrecoverable "Attempt to initialize column vector to invalid type.")
  else if t.type = .null ∨ t.type = .missing then
    .error (.unrecoverable "Unexpected data type for column vector.")
  else t.size

/-- `ColumnVector::ReadAdv`. The rows are copied into the buffer without a check: a negative count
or one above the rows of the buffer overruns it. The product of the count and the width is a 32-bit
one in the source, which matters only for fixed parts of `2 ^ 31` bytes. -/
def readAdv (maxBytes : ℤ) : Read ColumnVector := do
  let start ← tell
  let dataType ← DataType.readAdv maxBytes
  let vectorType ← readPod ColumnVectorType
  let width ← ofExcept (initializeHelper dataType vectorType)
  let tailIndex ← readPod Int32
  if tailIndex < 0 then raise (.undefined "column buffer overrun") else
  let data ← readBytes (vectorType.fixedLength width tailIndex.toNatClampNeg)
  let heap ← readHeap (heapKind dataType.type)
  let heap1 ← readHeap (heapKind1 dataType.type)
  let ptr ← tell
  if start + maxBytes - ptr < 0 then
    raise (.unrecoverable "ptr goes out of range when reading ColumnVector")
  else
    let nulls ← Bitmask.readAdv
    let ptr ← tell
    if start + maxBytes - ptr < 0 then
      raise (.unrecoverable "ptr goes out of range when reading ColumnVector")
    else
      let c : ColumnData := ⟨dataType, vectorTypeOf dataType.type vectorType,
        tailIndex.toNatClampNeg, data, heap, heap1, nulls⟩
      if h : c.WellFormed then pure ⟨c, h⟩ else raise (.undefined "column buffer overrun")

/-- Both heaps can be put back in one allocation. -/
def HeapsFit (c : ColumnVector) : Prop := HeapFits (heapKind c.val.dataType.type) c.val.heap ∧
    HeapFits (heapKind1 c.val.dataType.type) c.val.heap1

/-- The vectors that the codec carries: a serializable type that is not a huge integer, and heaps
that the reader can put back. -/
def Encodable (c : ColumnVector) : Prop :=
  c.val.dataType.Serializable = true ∧ c.val.dataType.type ≠ .hugeInt ∧ c.HeapsFit

theorem length_writeHeap : (writeHeap k heap).length = heapSize k heap := by
  cases k <;> simp [writeHeap, heapSize, stringSize]

theorem heap_length_le (h : HeapAllowed k heap) : heap.length ≤ heapSize k heap := by
  cases k with
  | none => simp [h rfl]
  | some k => rw [heapSize]; omega

theorem length_tailBytes (c : ColumnVector) : c.tailBytes.length =
    1 + (4 + (c.val.data.length + (heapSize (heapKind c.val.dataType.type) c.val.heap +
      (heapSize (heapKind1 c.val.dataType.type) c.val.heap1 + c.val.nulls.writeAdv.length)))) := by
  simp only [tailBytes, length_append, length_writePod, length_writeHeap, Pod.width]

/-- The size is the number of bytes written exactly when the type is serializable. -/
theorem sized (c : ColumnVector) :
    Sized c.writeAdv c.getSizeInBytes (c.val.dataType.Serializable) := by
  intro bs hw
  unfold writeAdv at hw
  split at hw
  · cases hw
  · have htail : Sized (.ok c.tailBytes)
        (.ok (Int32.ofNat 1 + Int32.ofNat 4 + Int32.ofNat c.val.data.length
        + Int32.ofNat (heapSize (heapKind c.val.dataType.type) c.val.heap)
        + Int32.ofNat (heapSize (heapKind1 c.val.dataType.type) c.val.heap1) +
        c.val.nulls.getSizeInBytes)) True := by
      rw [Bitmask.getSizeInBytes_eq]
      simp only [← Int32.ofNat_add]
      exact .ok (by rw [length_tailBytes]; omega)
    exact ((DataType.sized c.val.dataType).then htail).congr (by simp) bs hw

/-- The two parts of a written vector. -/
theorem writeAdv_eq_ok (hw : c.writeAdv = .ok bs) : c.val.dataType.type ≠ .hugeInt ∧
      ∃ b, c.val.dataType.writeAdv = .ok b ∧ bs = b ++ c.tailBytes := by
  unfold writeAdv at hw
  split at hw
  · cases hw
  · rename_i hne
    obtain ⟨b, _, hb, ⟨⟩, rfl⟩ := writeThen_eq_ok.mp hw
    exact ⟨hne, b, hb, rfl⟩

/-- The type of a vector is what its reader settles on, and not the invalid one. -/
theorem vectorType_eq (c : ColumnVector) : c.val.vectorType ≠ .invalid ∧
    vectorTypeOf c.val.dataType.type c.val.vectorType = c.val.vectorType := by
  rcases c.property.vector_type with h | h <;> rw [h]
  · unfold vectorTypeOf
    split <;> simp_all
  · simp [vectorTypeOf]

theorem initializeHelper_eq : ∃ width,
    initializeHelper c.val.dataType c.val.vectorType = .ok width ∧
      c.val.data.length = c.val.vectorType.fixedLength width c.val.tailIndex := by
  obtain ⟨width, hwidth, hlen⟩ := c.property.data_length
  obtain ⟨hinvalid, hnull, hmissing⟩ := c.property.type_ne
  refine ⟨width, ?_, hlen⟩
  rw [initializeHelper, if_neg (by simp [hinvalid, c.vectorType_eq.1]),
    if_neg (by simp [hnull, hmissing])]
  revert hwidth
  cases c.val.dataType.size <;> simp [Except.toOption]

theorem tailIndex_lt : c.val.tailIndex < sizeLimit := by
  have hrows : c.val.vectorType.bufferRows ≤ vectorSize := by
    unfold ColumnVectorType.bufferRows
    split <;> decide
  exact (c.property.tail_le.trans hrows).trans_lt (by decide)

theorem tailIndex_nonneg : ¬ Int32.ofNat c.val.tailIndex < 0 := by
  rw [Int32.lt_iff_toInt_lt, Int32.toInt_ofNat_of_lt tailIndex_lt]
  simp

theorem toNatClampNeg_tailIndex :
    (Int32.ofNat c.val.tailIndex).toNatClampNeg = c.val.tailIndex :=
  toNatClampNeg_ofNat tailIndex_lt

/-- **A vector that is encodable is read back from its bytes.** -/
theorem readAdv_writeAdv (hc : c.Encodable)
    (hw : c.writeAdv = .ok bs) (hlim : bs.length < sizeLimit) (hm : bs.length ≤ m) :
    ReadsAt p (readAdv m) bs c := by
  obtain ⟨hser, -, hfit, hfit1⟩ := hc
  obtain ⟨-, b, hb, rfl⟩ := writeAdv_eq_ok hw
  obtain ⟨width, hinit, hdata⟩ := initializeHelper_eq
  have hheap := heap_length_le c.property.heap_allowed
  have hheap1 := heap_length_le c.property.heap1_allowed
  rw [length_append, length_tailBytes] at hlim hm
  refine ReadsAt.tell_bind <| (DataType.readAdv_writeAdv hser hb (by omega)).bind <|
    .pod <| ReadsAt.skip (readsAt_ofExcept hinit) <| .pod ?_
  rw [if_neg tailIndex_nonneg, toNatClampNeg_tailIndex]
  refine (ReadsAt.readBytes hdata).bind <|
    (readHeap_writeHeap c.property.heap_allowed hfit (by omega)).bind <|
    (readHeap_writeHeap c.property.heap1_allowed hfit1 (by omega)).bind <| ReadsAt.tell_bind ?_
  simp only [length_writePod, length_writeHeap, Pod.width]
  rw [if_neg (by push_cast; omega)]
  refine (Bitmask.readAdv_writeAdv _).last <| ReadsAt.tell_bind ?_
  rw [if_neg (by push_cast; omega), c.vectorType_eq.2, dif_pos c.property]
  exact .pure _

/-- **A heap that does not fit one allocation stops the reader.** -/
theorem readAdv_fails (hser : c.val.dataType.Serializable) (hc : ¬ c.HeapsFit)
    (hw : c.writeAdv = .ok bs) (hlim : bs.length < sizeLimit) (hm : bs.length ≤ m) :
    FailsAt p (readAdv m) bs := by
  obtain ⟨-, b, hb, rfl⟩ := writeAdv_eq_ok hw
  obtain ⟨width, hinit, hdata⟩ := initializeHelper_eq
  have hheap := heap_length_le c.property.heap_allowed
  have hheap1 := heap_length_le c.property.heap1_allowed
  rw [length_append, length_tailBytes] at hlim hm
  refine FailsAt.tell_bind <| FailsAt.tail (DataType.readAdv_writeAdv hser hb (by omega)) <|
    FailsAt.tail (.readPod _) <| .skip (readsAt_ofExcept hinit) <| FailsAt.tail (.readPod _) ?_
  rw [if_neg tailIndex_nonneg, toNatClampNeg_tailIndex]
  refine .tail (.readBytes hdata) ?_
  by_cases hfit : HeapFits (heapKind c.val.dataType.type) c.val.heap
  · have hfit1 : ¬ HeapFits (heapKind1 c.val.dataType.type) c.val.heap1 := fun h => hc ⟨hfit, h⟩
    exact .tail (readHeap_writeHeap c.property.heap_allowed hfit (by omega)) <|
      FailsAt.head (readHeap_fails hfit1 (by omega))
  · exact .head (readHeap_fails hfit (by omega))

theorem writeAdv_of_encodable (hc : c.Encodable) : ∃ bs, c.writeAdv = .ok bs := by
  obtain ⟨b, hb⟩ := DataType.writeAdv_of_serializable hc.1
  refine ⟨b ++ c.tailBytes, ?_⟩
  rw [writeAdv, if_neg hc.2.1]
  exact writeThen_eq_ok.mpr ⟨b, _, hb, rfl, rfl⟩

def byteCount (c : ColumnVector) : ℕ := c.val.dataType.byteCount + (5 + c.val.data.length
    + heapSize (heapKind c.val.dataType.type) c.val.heap
    + heapSize (heapKind1 c.val.dataType.type) c.val.heap1 + c.val.nulls.byteCount)

theorem length_of_writeAdv (hser : c.val.dataType.Serializable) (hw : c.writeAdv = .ok bs) :
    bs.length = c.byteCount := by
  obtain ⟨-, b, hb, rfl⟩ := writeAdv_eq_ok hw
  rw [length_append, length_tailBytes, DataType.length_of_writeAdv hser hb,
    Bitmask.length_writeAdv_eq, byteCount]
  omega

theorem writeAdv_pos (h : c.writeAdv = .ok bs) : 0 < bs.length := by
  obtain ⟨-, b, -, rfl⟩ := writeAdv_eq_ok h
  rw [length_append, length_tailBytes]
  omega

end ColumnVector

open ColumnVector

/-! ## Data blocks -/

/-- All columns but the constant ones have the same number of rows, as `DataBlock::Finalize`
checks. -/
def SameRows (cs : List ColumnVector) : Prop :=
  ∀ c ∈ cs, c.val.vectorType ≠ .constant → ∀ d ∈ cs, d.val.vectorType ≠ .constant →
    c.val.tailIndex = d.val.tailIndex

instance (cs : List ColumnVector) : Decidable (SameRows cs) :=
  inferInstanceAs (Decidable (∀ c ∈ cs, _ → ∀ d ∈ cs, _ → _))

/-- A finalized `DataBlock`. -/
structure DataBlock where
  columns : List ColumnVector
  nonempty : columns ≠ []
  sameRows : SameRows columns

namespace DataBlock

variable {b : DataBlock} {ptrEnd : ℤ}

/-- `DataBlock::GetSizeInBytes`. -/
def getSizeInBytes (b : DataBlock) : Except Exn Int32 :=
  addSize (.ok (Int32.ofNat 4)) (sizeAll ColumnVector.getSizeInBytes b.columns)

/-- `DataBlock::WriteAdv`. -/
def writeAdv (b : DataBlock) : Except Exn Bytes :=
  writeThen (.ok (writePod (Int32.ofNat b.columns.length)))
    (writeAll ColumnVector.writeAdv b.columns)

/-- `DataBlock::Init` and `Finalize` on a list of columns. -/
def init (columns : List ColumnVector) : Except Exn DataBlock :=
  if h : columns = [] then .error (.unrecoverable "Empty column vectors.")
  else if h' : SameRows columns then .ok ⟨columns, h, h'⟩
  else .error (.unrecoverable "Column vectors in same data block have different size.")

/-- The loop body of `DataBlock::ReadAdv`. -/
def readColumn (ptrEnd : ℤ) : Read ColumnVector := do
  let ptr ← tell
  if ptrEnd - ptr ≤ 0 then raise (.unrecoverable "ptr goes out of range when reading DataBlock")
  else ColumnVector.readAdv (ptrEnd - ptr)

/-- `DataBlock::ReadAdv`. -/
def readAdv (maxBytes : ℤ) : Read DataBlock := do
  let start ← tell
  let columnCount ← readPod Int32
  let columns ← readMany columnCount.toNatClampNeg (readColumn (start + maxBytes))
  let block ← ofExcept (init columns)
  let ptr ← tell
  if start + maxBytes - ptr < 0 then
    raise (.unrecoverable "ptr goes out of range when reading DataBlock")
  else pure block

def Serializable (b : DataBlock) : Prop := ∀ c ∈ b.columns, c.val.dataType.Serializable = true

def Encodable (b : DataBlock) : Prop := ∀ c ∈ b.columns, c.Encodable

theorem sized (b : DataBlock) : Sized b.writeAdv b.getSizeInBytes b.Serializable := by
  have hcount : Sized (.ok (writePod (Int32.ofNat b.columns.length))) (.ok (Int32.ofNat 4)) True :=
    Sized.ok (by simp [Pod.width])
  exact (hcount.then (.all ColumnVector.sized b.columns)).congr (by simp [Serializable])

theorem init_columns : init b.columns = .ok b := by
  rw [init, dif_neg b.nonempty, dif_pos b.sameRows]

theorem readColumn_reads (hc : c.Encodable) (hw : c.writeAdv = .ok bs)
    (hlim : bs.length < sizeLimit) (hend : (p + bs.length : ℤ) ≤ ptrEnd) :
    ReadsAt p (readColumn ptrEnd) bs c := by
  have hpos := writeAdv_pos hw
  refine .tell_bind ?_
  rw [if_neg (by omega)]
  exact readAdv_writeAdv hc hw hlim (by omega)

theorem readColumn_fails (hser : c.val.dataType.Serializable) (hc : ¬ c.Encodable)
    (hw : c.writeAdv = .ok bs)
    (hlim : bs.length < sizeLimit) (hend : (p + bs.length : ℤ) ≤ ptrEnd) :
    FailsAt p (readColumn ptrEnd) bs := by
  have hpos := writeAdv_pos hw
  obtain ⟨hne, -⟩ := writeAdv_eq_ok hw
  refine .tell_bind ?_
  rw [if_neg (by omega)]
  exact readAdv_fails hser (fun h => hc ⟨hser, hne, h⟩) hw hlim (by omega)

/-- **A block whose columns are encodable is read back from its bytes.** -/
theorem readAdv_writeAdv (hb : b.Encodable)
    (hw : b.writeAdv = .ok bs) (hlim : bs.length < sizeLimit) (hm : bs.length ≤ m) :
    ReadsAt p (readAdv m) bs b := by
  obtain ⟨_, cols, ⟨⟩, hcols, rfl⟩ := writeThen_eq_ok.mp hw
  have hlen := length_le_of_writeAll (fun _ _ => writeAdv_pos) hcols
  simp only [length_append, length_writePod, Pod.width] at hlim hm
  refine .tell_bind <| .pod ?_
  rw [toNatClampNeg_ofNat (by omega)]
  refine .last (readsAt_writeAll hcols fun c hc b' q hb' _ hq => ?_) ?_
  · simp only [length_writePod, Pod.width] at hq
    exact readColumn_reads (hb c hc) hb' (by omega) (by omega)
  · refine .skip (readsAt_ofExcept b.init_columns) <| .tell_bind ?_
    simp only [length_writePod, Pod.width]
    rw [if_neg (by push_cast; omega)]
    exact .pure _

/-- **One column that is not encodable stops the reader.** -/
theorem readAdv_fails (hser : b.Serializable) (hb : ¬ b.Encodable)
    (hw : b.writeAdv = .ok bs) (hlim : bs.length < sizeLimit) (hm : bs.length ≤ m) :
    FailsAt p (readAdv m) bs := by
  obtain ⟨_, cols, ⟨⟩, hcols, rfl⟩ := writeThen_eq_ok.mp hw
  have hlen := length_le_of_writeAll (fun _ _ => writeAdv_pos) hcols
  simp only [length_append, length_writePod, Pod.width] at hlim hm
  refine .tell_bind <| .tail (.readPod _) ?_
  rw [toNatClampNeg_ofNat (by omega)]
  refine .only (failsAt_writeAll hcols (fun c _ hc b' q hb' _ hq => ?_)
    (fun c hc' hc b' q hb' _ hq => ?_) (by simpa [Encodable] using hb))
  · simp only [length_writePod, Pod.width] at hq
    exact readColumn_reads hc hb' (by omega) (by omega)
  · simp only [length_writePod, Pod.width] at hq
    exact readColumn_fails (hser c hc') hc hb' (by omega) (by omega)

theorem writeAdv_of_encodable (hb : b.Encodable) : ∃ bs, b.writeAdv = .ok bs := by
  obtain ⟨cols, hcols⟩ :=
    writeAll_of_forall fun c hc => ColumnVector.writeAdv_of_encodable (hb c hc)
  exact ⟨_, writeThen_eq_ok.mpr ⟨_, cols, rfl, hcols, rfl⟩⟩

def byteCount (b : DataBlock) : ℕ := 4 + (b.columns.map ColumnVector.byteCount).sum

theorem length_of_writeAdv (hser : b.Serializable) (hw : b.writeAdv = .ok bs) :
    bs.length = b.byteCount := by
  obtain ⟨_, cols, ⟨⟩, hcols, rfl⟩ := writeThen_eq_ok.mp hw
  have hlen := length_of_writeAll (fun c hc _ hb => length_of_writeAdv (hser c hc) hb) hcols
  simp only [length_append, length_writePod, Pod.width, hlen, byteCount]

end DataBlock

end Infinity.Storage
