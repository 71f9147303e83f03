import Infinity.Parser.Serialize

/-! # Index definitions (`storage/definition/index_base.cpp` and its subclasses)

Every kind of index writes the same head (kind, name, file, columns) and then its own
parameters. -/

namespace Infinity.Storage

open Foundations Infinity.Parser

/-- `IndexType`. -/
inductive IndexType where
  | ivfFlat | hnsw | bmp | fullText | secondary | emvb | invalid
  deriving DecidableEq, Repr

def IndexType.all : List IndexType :=
  [.ivfFlat, .hnsw, .bmp, .fullText, .secondary, .emvb, .invalid]

instance : Pod IndexType := Pod.ofList 4 IndexType.all (by intro t; cases t <;> decide) (by decide)

/-- `MetricType`. -/
inductive MetricType where
  | cosine | innerProduct | l2 | invalid
  deriving DecidableEq, Repr

def MetricType.all : List MetricType := [.cosine, .innerProduct, .l2, .invalid]

instance : Pod MetricType :=
  Pod.ofList 4 MetricType.all (by intro t; cases t <;> decide) (by decide)

/-- `HnswEncodeType`. -/
inductive HnswEncodeType where
  | plain | lvq | invalid
  deriving DecidableEq, Repr

def HnswEncodeType.all : List HnswEncodeType := [.plain, .lvq, .invalid]

instance : Pod HnswEncodeType :=
  Pod.ofList 4 HnswEncodeType.all (by intro t; cases t <;> decide) (by decide)

/-- `BMPCompressType`. -/
inductive BMPCompressType where
  | raw | compressed | invalid
  deriving DecidableEq, Repr

def BMPCompressType.all : List BMPCompressType := [.raw, .compressed, .invalid]

instance : Pod BMPCompressType :=
  Pod.ofList 1 BMPCompressType.all (by intro t; cases t <;> decide) (by decide)

/-- The parameters that each subclass of `IndexBase` adds. -/
inductive IndexParams where
  | ivfFlat (centroidsCount : UInt64) (metricType : MetricType)
  | hnsw (metricType : MetricType) (encodeType : HnswEncodeType) (m efConstruction ef : UInt64)
  | bmp (blockSize : UInt64) (compressType : BMPCompressType)
  | fullText (analyzer : Bytes) (flag : UInt8)
  | secondary
  | emvb (residualPqSubspaceNum residualPqSubspaceBits : UInt32)
  deriving DecidableEq, Repr

/-- `IndexBase` with the parameters of its subclass. -/
structure IndexBase where
  indexName : Bytes
  fileName : Bytes
  columnNames : List Bytes
  params : IndexParams
  deriving DecidableEq, Repr

namespace IndexParams

/-- `index_type_`. -/
def indexType : IndexParams → IndexType
  | .ivfFlat .. => .ivfFlat
  | .hnsw .. => .hnsw
  | .bmp .. => .bmp
  | .fullText .. => .fullText
  | .secondary => .secondary
  | .emvb .. => .emvb

def size : IndexParams → ℕ
  | .ivfFlat .. => 8 + 4
  | .hnsw .. => 4 + 4 + 8 + 8 + 8
  | .bmp .. => 8 + 1
  | .fullText analyzer _ => 4 + analyzer.length + 1
  | .secondary => 0
  | .emvb .. => 4 + 4

def write : IndexParams → Bytes
  | .ivfFlat centroidsCount metricType => writePod centroidsCount ++ writePod metricType
  | .hnsw metricType encodeType m efConstruction ef =>
    writePod metricType ++
      (writePod encodeType ++ (writePod m ++ (writePod efConstruction ++ writePod ef)))
  | .bmp blockSize compressType => writePod blockSize ++ writePod compressType
  | .fullText analyzer flag => writeString analyzer ++ writePod flag
  | .secondary => []
  | .emvb num bits => writePod num ++ writePod bits

/-- The switch of `IndexBase::ReadAdv`. -/
def read : IndexType → Read IndexParams
  | .ivfFlat => do
    let centroidsCount ← readPod UInt64
    let metricType ← readPod MetricType
    pure (.ivfFlat centroidsCount metricType)
  | .hnsw => do
    let metricType ← readPod MetricType
    let encodeType ← readPod HnswEncodeType
    let m ← readPod UInt64
    let efConstruction ← readPod UInt64
    let ef ← readPod UInt64
    pure (.hnsw metricType encodeType m efConstruction ef)
  | .fullText => do
    let analyzer ← readString
    let flag ← readPod UInt8
    pure (.fullText analyzer flag)
  | .secondary => pure .secondary
  | .emvb => do
    let num ← readPod UInt32
    let bits ← readPod UInt32
    pure (.emvb num bits)
  | .bmp => do
    let blockSize ← readPod UInt64
    let compressType ← readPod BMPCompressType
    pure (.bmp blockSize compressType)
  | .invalid => raise (.unrecoverable "Error index method while reading")

theorem length_write (i : IndexParams) : i.write.length = i.size := by
  cases i <;> simp [write, size, stringSize, Pod.width]

theorem read_write {p : ℕ} {i : IndexParams} (h : i.write.length < sizeLimit) :
    ReadsAt p (read i.indexType) i.write i := by
  cases i with
  | ivfFlat | bmp | emvb => exact .pod <| (ReadsAt.readPod _).last (ReadsAt.pure _)
  | hnsw =>
    exact .pod <| .pod <| .pod <| .pod <| (ReadsAt.readPod _).last (ReadsAt.pure _)
  | fullText analyzer flag =>
    exact string_bind h fun _ => (ReadsAt.readPod _).last (ReadsAt.pure _)
  | secondary => exact .pure _

end IndexParams

namespace IndexBase

/-- `IndexBase::GetSizeInBytes` with what the subclass adds. -/
def getSizeInBytes (i : IndexBase) : Int32 :=
  Int32.ofNat 4 + Int32.ofNat 4 + Int32.ofNat i.indexName.length + Int32.ofNat 4
    + Int32.ofNat i.fileName.length + Int32.ofNat 4 + sumSizes (fun name =>
    Int32.ofNat (4 + name.length)) i.columnNames + Int32.ofNat i.params.size

/-- `IndexBase::WriteAdv` with what the subclass adds. -/
def writeAdv (i : IndexBase) : Bytes :=
  writePod i.params.indexType ++ (writeString i.indexName ++ (writeString i.fileName ++
    (writeVector writeString i.columnNames ++ i.params.write)))

/-- `IndexBase::ReadAdv`. -/
def readAdv (maxBytes : ℤ) : Read IndexBase := do
  let start ← tell
  if maxBytes ≤ 0 then raise (.unrecoverable "ptr goes out of range when reading IndexBase")
  else
    let indexType ← readPod IndexType
    let indexName ← readString
    let fileName ← readString
    let columnNames ← readVector readString
    let params ← IndexParams.read indexType
    let ptr ← tell
    if start + maxBytes < ptr then
      raise (.unrecoverable "ptr goes out of range when reading IndexBase")
    else pure ⟨indexName, fileName, columnNames, params⟩

theorem length_writeAdv (i : IndexBase) :
      i.writeAdv.length = 4 + (4 + i.indexName.length) + (4 + i.fileName.length)
      + (4 + (i.columnNames.flatMap writeString).length) + i.params.size := by
  simp only [writeAdv, List.length_append, length_writePod, length_writeString, stringSize,
    length_writeVector, IndexParams.length_write, Pod.width]
  omega

def byteCount (i : IndexBase) : ℕ := 4 + (4 + i.indexName.length) + (4 + i.fileName.length)
    + (4 + (i.columnNames.map stringSize).sum) + i.params.size

theorem length_writeAdv_eq (i : IndexBase) : i.writeAdv.length = i.byteCount := by
  rw [length_writeAdv, length_flatMap_eq length_writeString, byteCount]

/-- The size is the number of bytes written, cut to 32 bits. -/
theorem getSizeInBytes_eq (i : IndexBase) : i.getSizeInBytes = Int32.ofNat i.writeAdv.length := by
  have hnames : sumSizes (fun name : Bytes => Int32.ofNat (4 + name.length)) i.columnNames =
      Int32.ofNat (i.columnNames.flatMap writeString).length :=
    sumSizes_eq (fun name => by rw [length_writeString, stringSize]) _
  rw [getSizeInBytes, hnames, length_writeAdv]
  simp only [← Int32.ofNat_add]
  congr 1
  omega

theorem readVector_writeString {p : ℕ} {names : List Bytes}
    (h : (writeVector writeString names).length < sizeLimit) :
    ReadsAt p (readVector readString) (writeVector writeString names) names := by
  obtain ⟨hcount, hitem⟩ := vector_lt (fun name => by rw [length_writeString, stringSize]; omega) h
  refine readVector_writeVector hcount fun name hname q _ _ => readString_writeString ?_
  exact lt_of_append (hitem name hname)

/-- **Every index definition of fewer than `2 ^ 31` bytes is read back.** -/
theorem readAdv_writeAdv {p : ℕ} {m : ℤ} {i : IndexBase} (hlim : i.writeAdv.length < sizeLimit)
    (hm : i.writeAdv.length ≤ m) : ReadsAt p (readAdv m) i.writeAdv i := by
  rw [length_writeAdv] at hlim hm
  refine ReadsAt.tell_bind ?_
  rw [if_neg (by omega)]
  refine .pod <| (readString_writeString (by omega)).bind <|
    (readString_writeString (by omega)).bind <|
    (readVector_writeString (by rw [length_writeVector]; omega)).bind <|
    ReadsAt.last (IndexParams.read_write (by rw [IndexParams.length_write]; omega)) ?_
  refine .tell_bind ?_
  simp only [length_writePod, length_writeString, stringSize, length_writeVector,
    IndexParams.length_write, Pod.width]
  rw [if_neg (by push_cast; omega)]
  exact .pure _

end IndexBase

end Infinity.Storage
