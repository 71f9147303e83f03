import Infinity.Storage.TableDef
import Infinity.Storage.IndexBase
import Infinity.Wal.SegmentInfo

/-! # Catalog delta operations and their codec (`storage/wal/catalog_delta_entry.cpp`)

A delta operation says that one entry of the catalog was created, changed or dropped: a type code,
a base common to all, and the attributes of the entry. The columns of a table are written as
`TableDef` writes them, except that `build_bloom_filter_` is not among the fields.

The operation of a dropped index is written without the definition it holds.

* `DeltaOp.readAdv_writeAdv`: what is read back is the operation with `build_bloom_filter_`
  cleared in every column, and without the definition of an index that is dropped.
-/

namespace Infinity.Wal

open Foundations Infinity.Parser Storage List

variable {bs : Bytes} {p : ℕ} {ptrEnd : ℤ}

/-- `CatalogDeltaOpType`. -/
inductive CatalogDeltaOpType where
  | invalid | addDatabaseEntry | addTableEntry | addSegmentEntry | addBlockEntry | addColumnEntry
  | addTableIndexEntry | addSegmentIndexEntry | addChunkIndexEntry | setSegmentStatusSealed
  | setBlockStatusSealed
  deriving DecidableEq, Repr

namespace CatalogDeltaOpType

def code : CatalogDeltaOpType → UInt8
  | .invalid => 0
  | .addDatabaseEntry => 1
  | .addTableEntry => 2
  | .addSegmentEntry => 3
  | .addBlockEntry => 4
  | .addColumnEntry => 5
  | .addTableIndexEntry => 11
  | .addSegmentIndexEntry => 12
  | .addChunkIndexEntry => 13
  | .setSegmentStatusSealed => 21
  | .setBlockStatusSealed => 22

def all : List CatalogDeltaOpType :=
  [.invalid, .addDatabaseEntry, .addTableEntry, .addSegmentEntry, .addBlockEntry, .addColumnEntry,
   .addTableIndexEntry, .addSegmentIndexEntry, .addChunkIndexEntry, .setSegmentStatusSealed,
   .setBlockStatusSealed]

def ofCode (c : UInt8) : Option CatalogDeltaOpType := all.find? (·.code == c)

end CatalogDeltaOpType

/-- `MergeFlag`. -/
inductive MergeFlag where
  | invalid | delete | new | update | deleteAndNew
  deriving DecidableEq, Repr

def MergeFlag.all : List MergeFlag := [.invalid, .delete, .new, .update, .deleteAndNew]

instance : Pod MergeFlag := Pod.ofList 1 MergeFlag.all (by intro t; cases t <;> decide) (by decide)

/-- `SegmentStatus`. -/
inductive SegmentStatus where
  | unsealed | sealed | compacting | noDelete | deprecated
  deriving DecidableEq, Repr

def SegmentStatus.all : List SegmentStatus :=
  [.unsealed, .sealed, .compacting, .noDelete, .deprecated]

instance : Pod SegmentStatus :=
  Pod.ofList 1 SegmentStatus.all (by intro t; cases t <;> decide) (by decide)

/-- The members of `CatalogDeltaOperation`. -/
structure DeltaBase where
  beginTs : UInt64
  mergeFlag : MergeFlag
  txnId : UInt64
  commitTs : UInt64
  encode : Bytes
  deriving DecidableEq, Repr

/-- The members of `AddSegmentEntryOp`. -/
structure SegmentAttrs where
  status : SegmentStatus
  columnCount : UInt64
  rowCount : UInt64
  actualRowCount : UInt64
  rowCapacity : UInt64
  minRowTs : UInt64
  maxRowTs : UInt64
  firstDeleteTs : UInt64
  deprecateTs : UInt64
  segmentFilterBinaryData : Bytes
  deriving DecidableEq, Repr

/-- The members of `AddBlockEntryOp`. -/
structure BlockAttrs where
  rowCount : UInt16
  rowCapacity : UInt16
  minRowTs : UInt64
  maxRowTs : UInt64
  checkpointTs : UInt64
  checkpointRowCount : UInt16
  blockFilterBinaryData : Bytes
  deriving DecidableEq, Repr

/-- The attributes that each subclass of `CatalogDeltaOperation` adds. The operation of a dropped
index has no directory, and its definition is an `IndexBase` with nothing but a name, which
`DropTableIndexEntry` makes; read from a file it has none. -/
inductive DeltaAttrs where
  | addDBEntry (dbEntryDir : Bytes)
  | addTableEntry (tableEntryDir : Bytes) (columnDefs : List ColumnDef) (rowCount : UInt64)
      (unsealedId nextSegmentId : UInt32)
  | addSegmentEntry (attrs : SegmentAttrs)
  | addBlockEntry (attrs : BlockAttrs)
  | addColumnEntry (outlineInfos : List (UInt32 × UInt64))
  | addTableIndexEntry (index : Option (Bytes × IndexBase)) (dropped : Option Bytes)
  | addSegmentIndexEntry (minTs maxTs : UInt64) (nextChunkId : UInt32)
  | addChunkIndexEntry (baseName : Bytes) (baseRowid : RowID) (rowCount : UInt32)
      (deprecateTs : UInt64)

/-- An index operation has a directory and a full definition unless it drops the index. -/
def DeltaAttrs.Fits (flag : MergeFlag) : DeltaAttrs → Prop
  | .addTableIndexEntry index dropped => (index.isSome ↔ flag ≠ .delete) ∧
    (dropped.isSome → flag = .delete)
  | _ => True

/-- `CatalogDeltaOperation` with the attributes of its subclass. -/
structure DeltaOp where
  base : DeltaBase
  attrs : DeltaAttrs
  fits : attrs.Fits base.mergeFlag

/-! ## The base -/

namespace DeltaBase

/-- `GetBaseSizeInBytes`. -/
def size (b : DeltaBase) : ℕ := 8 + 1 + 8 + 8 + (4 + b.encode.length)

/-- `WriteAdvBase`. -/
def write (b : DeltaBase) : Bytes :=
  writePod b.beginTs ++
    (writePod b.mergeFlag ++ (writePod b.txnId ++ (writePod b.commitTs ++ writeString b.encode)))

/-- `ReadAdvBase`. -/
def read : Read DeltaBase := do
  let beginTs ← readPod UInt64
  let mergeFlag ← readPod MergeFlag
  let txnId ← readPod UInt64
  let commitTs ← readPod UInt64
  let encode ← readString
  pure ⟨beginTs, mergeFlag, txnId, commitTs, encode⟩

@[simp] theorem length_write (b : DeltaBase) : b.write.length = b.size := by
  simp only [write, size, length_append, length_writePod, length_writeString, stringSize, Pod.width]
  omega

theorem read_write {b : DeltaBase} (h : b.size < sizeLimit) : ReadsAt p read b.write b := by
  unfold size at h
  exact .pod <| .pod <| .pod <| .pod <| (readString_writeString (by omega)).last (.pure _)

end DeltaBase

open DeltaBase

/-! ## The columns of a table operation -/

namespace DeltaColumn

variable {c : ColumnDef}

/-- The loop body of `AddTableEntryOp::WriteAdv`. -/
def write (c : ColumnDef) : Except Exn Bytes :=
  writeThen (.ok (writePod c.id)) (writeThen c.columnType.writeAdv (.ok c.coreBytes))

/-- The loop body of `AddTableEntryOp::GetSizeInBytes`. -/
def size (c : ColumnDef) : Except Exn Int32 :=
  addSize (.ok (Int32.ofNat 8)) (addSize c.columnType.getSizeInBytes
    (.ok (Int32.ofNat (4 + c.name.length) + Int32.ofNat 4 +
      Int32.ofNat ((constraintList c.constraints).length * 1) + c.defaultExpr.getSizeInBytes)))

/-- The loop body of `AddTableEntryOp::ReadAdv`. The bytes left are an unsigned number here, so
that the test for none left only sees zero; the constructor leaves `build_bloom_filter_` false. -/
def read (ptrEnd : ℤ) : Read ColumnDef := do
  let id ← readPod Int64
  let ptr ← tell
  let maxBytes := ptrEnd - ptr
  if maxBytes = 0 then raise (.unrecoverable "ptr goes out of range when reading TableDef")
  else
    let columnType ← DataType.readAdv maxBytes
    let name ← readString
    let constraints ← readVector (readPod ConstraintType)
    let defaultExpr ← ConstantExpr.readAdv maxBytes
    pure ⟨id, columnType, name, constraints.toFinset, defaultExpr, false⟩

/-- The column that is left when `build_bloom_filter_` is forgotten. -/
def forget (c : ColumnDef) : ColumnDef := { c with buildBloomFilter := false }

theorem sized (c : ColumnDef) : Sized (write c) (size c) (c.columnType.Serializable) := by
  rw [size, ConstantExpr.getSizeInBytes_eq]
  simp only [← Int32.ofNat_add]
  exact c.sized_typed (by rw [ColumnDef.length_coreBytes]; omega)

theorem read_write (hc : c.columnType.Serializable) (hw : write c = .ok bs)
    (hlim : bs.length < sizeLimit) (hend : (p + bs.length : ℤ) ≤ ptrEnd) :
    ReadsAt p (read ptrEnd) bs (forget c) := by
  obtain ⟨_, _, ⟨⟩, h, rfl⟩ := writeThen_eq_ok.mp hw
  obtain ⟨b, _, hb, ⟨⟩, rfl⟩ := writeThen_eq_ok.mp h
  have hpos := c.length_coreBytes
  simp only [length_append, length_writePod, Pod.width] at hlim hend
  refine .pod <| .tell_bind ?_
  simp only [length_writePod, Pod.width]
  rw [if_neg (by push_cast; omega)]
  refine (DataType.readAdv_writeAdv hc hb (by push_cast; omega)).bind ?_
  rw [← append_nil c.coreBytes]
  refine ColumnDef.coreBytes_reads (by omega) (by push_cast; omega) fun q => ?_
  rw [toFinset_constraintList]
  exact .pure _

def byteCount (c : ColumnDef) : ℕ :=
  8 + c.columnType.byteCount + (4 + c.name.length + (4 + (constraintList c.constraints).length)
    + c.defaultExpr.byteCount)

theorem length_of_write (hc : c.columnType.Serializable) (hw : write c = .ok bs) :
    bs.length = byteCount c := by
  obtain ⟨_, _, ⟨⟩, h, rfl⟩ := writeThen_eq_ok.mp hw
  obtain ⟨b, _, hb, ⟨⟩, rfl⟩ := writeThen_eq_ok.mp h
  simp only [length_append, length_writePod, ColumnDef.length_coreBytes, Pod.width,
    byteCount, DataType.length_of_writeAdv hc hb, ConstantExpr.length_writeAdv_eq]
  omega

theorem write_pos (h : write c = .ok bs) : 0 < bs.length := pos_of_writeThen (by simp [Pod.width]) h

theorem write_of_serializable (hc : c.columnType.Serializable) : ∃ bs, write c = .ok bs := by
  obtain ⟨b, hb⟩ := DataType.writeAdv_of_serializable hc
  exact ⟨_, writeThen_eq_ok.mpr ⟨_, _, rfl, writeThen_eq_ok.mpr ⟨b, _, hb, rfl, rfl⟩, rfl⟩⟩

end DeltaColumn

open DeltaColumn

/-! ## The attributes -/

namespace SegmentAttrs

/-- What `AddSegmentEntryOp::GetSizeInBytes` counts behind the base. -/
def size (a : SegmentAttrs) : ℕ :=
  1 + 8 + 8 + 8 + 8 + 8 * 4 + (4 + a.segmentFilterBinaryData.length)

/-- What `AddSegmentEntryOp::WriteAdv` writes behind the base. -/
def write (a : SegmentAttrs) : Bytes :=
  writePod a.status ++ (writePod a.columnCount ++ (writePod a.rowCount ++
    (writePod a.actualRowCount ++ (writePod a.rowCapacity ++ (writePod a.minRowTs ++
      (writePod a.maxRowTs ++ (writePod a.firstDeleteTs ++ (writePod a.deprecateTs ++
        writeString a.segmentFilterBinaryData))))))))

/-- What `AddSegmentEntryOp::ReadAdv` reads behind the base. -/
def read : Read SegmentAttrs := do
  let status ← readPod SegmentStatus
  let columnCount ← readPod UInt64
  let rowCount ← readPod UInt64
  let actualRowCount ← readPod UInt64
  let rowCapacity ← readPod UInt64
  let minRowTs ← readPod UInt64
  let maxRowTs ← readPod UInt64
  let firstDeleteTs ← readPod UInt64
  let deprecateTs ← readPod UInt64
  let segmentFilterBinaryData ← readString
  pure ⟨status, columnCount, rowCount, actualRowCount, rowCapacity, minRowTs, maxRowTs,
    firstDeleteTs, deprecateTs, segmentFilterBinaryData⟩

@[simp] theorem length_write (a : SegmentAttrs) : a.write.length = a.size := by
  simp only [write, size, length_append, length_writePod, length_writeString, stringSize, Pod.width]
  omega

theorem read_write {a : SegmentAttrs} (h : a.size < sizeLimit) : ReadsAt p read a.write a := by
  unfold size at h
  exact .pod <| .pod <| .pod <| .pod <| .pod <| .pod <| .pod <| .pod <| .pod <|
    (readString_writeString (by omega)).last (.pure _)

end SegmentAttrs

namespace BlockAttrs

/-- What `AddBlockEntryOp::GetSizeInBytes` counts behind the base. -/
def size (a : BlockAttrs) : ℕ := 2 + 2 + 8 * 2 + 8 + 2 + (4 + a.blockFilterBinaryData.length)

/-- What `AddBlockEntryOp::WriteAdv` writes behind the base. -/
def write (a : BlockAttrs) : Bytes :=
  writePod a.rowCount ++ (writePod a.rowCapacity ++ (writePod a.minRowTs ++
    (writePod a.maxRowTs ++ (writePod a.checkpointTs ++ (writePod a.checkpointRowCount ++
      writeString a.blockFilterBinaryData)))))

/-- What `AddBlockEntryOp::ReadAdv` reads behind the base. -/
def read : Read BlockAttrs := do
  let rowCount ← readPod UInt16
  let rowCapacity ← readPod UInt16
  let minRowTs ← readPod UInt64
  let maxRowTs ← readPod UInt64
  let checkpointTs ← readPod UInt64
  let checkpointRowCount ← readPod UInt16
  let blockFilterBinaryData ← readString
  pure ⟨rowCount, rowCapacity, minRowTs, maxRowTs, checkpointTs, checkpointRowCount,
    blockFilterBinaryData⟩

@[simp] theorem length_write (a : BlockAttrs) : a.write.length = a.size := by
  simp only [write, size, length_append, length_writePod, length_writeString, stringSize, Pod.width]
  omega

theorem read_write {a : BlockAttrs} (h : a.size < sizeLimit) : ReadsAt p read a.write a := by
  unfold size at h
  exact .pod <| .pod <| .pod <| .pod <| .pod <| .pod <|
    (readString_writeString (by omega)).last (.pure _)

end BlockAttrs

namespace DeltaAttrs

/-- `GetType`. -/
def type : DeltaAttrs → CatalogDeltaOpType
  | .addDBEntry .. => .addDatabaseEntry
  | .addTableEntry .. => .addTableEntry
  | .addSegmentEntry .. => .addSegmentEntry
  | .addBlockEntry .. => .addBlockEntry
  | .addColumnEntry .. => .addColumnEntry
  | .addTableIndexEntry .. => .addTableIndexEntry
  | .addSegmentIndexEntry .. => .addSegmentIndexEntry
  | .addChunkIndexEntry .. => .addChunkIndexEntry

/-- What the `GetSizeInBytes` of the operation counts behind the base. -/
def size : DeltaAttrs → Except Exn Int32
  | .addDBEntry dbEntryDir => .ok (Int32.ofNat (4 + dbEntryDir.length))
  | .addTableEntry tableEntryDir columnDefs .. =>
    addSize (.ok (Int32.ofNat (4 + tableEntryDir.length) + Int32.ofNat 4))
      (addSize (sizeAll DeltaColumn.size columnDefs) (.ok (Int32.ofNat (8 + 4 * 2))))
  | .addSegmentEntry attrs => .ok (Int32.ofNat attrs.size)
  | .addBlockEntry attrs => .ok (Int32.ofNat attrs.size)
  | .addColumnEntry outlineInfos => .ok (Int32.ofNat (4 + outlineInfos.length * (4 + 8)))
  | .addTableIndexEntry none _ => .ok (Int32.ofNat 0)
  | .addTableIndexEntry (some (indexDir, indexBase)) _ =>
    .ok (Int32.ofNat (4 + indexDir.length) + indexBase.getSizeInBytes)
  | .addSegmentIndexEntry .. => .ok (Int32.ofNat (8 + 8 + 4))
  | .addChunkIndexEntry baseName .. => .ok (Int32.ofNat (4 + baseName.length + 8 + 4 + 8))

/-- What the `WriteAdv` of the operation writes behind the base. -/
def write : DeltaAttrs → Except Exn Bytes
  | .addDBEntry dbEntryDir => .ok (writeString dbEntryDir)
  | .addTableEntry tableEntryDir columnDefs rowCount unsealedId nextSegmentId =>
    writeThen (.ok (writeString tableEntryDir ++ writePod (Int32.ofNat columnDefs.length)))
      (writeThen (writeAll DeltaColumn.write columnDefs)
        (.ok (writePod rowCount ++ (writePod unsealedId ++ writePod nextSegmentId))))
  | .addSegmentEntry attrs => .ok attrs.write
  | .addBlockEntry attrs => .ok attrs.write
  | .addColumnEntry outlineInfos =>
    .ok (writePod (UInt32.ofNat outlineInfos.length) ++
      outlineInfos.flatMap WalBlockInfo.writeOutline)
  | .addTableIndexEntry none _ => .ok []
  | .addTableIndexEntry (some (indexDir, indexBase)) _ =>
    .ok (writeString indexDir ++ indexBase.writeAdv)
  | .addSegmentIndexEntry minTs maxTs nextChunkId =>
    .ok (writePod minTs ++ (writePod maxTs ++ writePod nextChunkId))
  | .addChunkIndexEntry baseName baseRowid rowCount deprecateTs =>
    .ok (writeString baseName ++
      (writePod baseRowid ++ (writePod rowCount ++ writePod deprecateTs)))

/-- What is left of the attributes: `build_bloom_filter_` and the definition of an index that is
dropped are forgotten. -/
def forget : DeltaAttrs → DeltaAttrs
  | .addTableEntry tableEntryDir columnDefs rowCount unsealedId nextSegmentId =>
    .addTableEntry tableEntryDir (columnDefs.map DeltaColumn.forget) rowCount unsealedId
      nextSegmentId
  | .addTableIndexEntry index _ => .addTableIndexEntry index none
  | a => a

theorem fits_forget {flag : MergeFlag} {a : DeltaAttrs} (h : a.Fits flag) : a.forget.Fits flag := by
  cases a with
  | addTableIndexEntry index dropped => exact ⟨h.1, nofun⟩
  | _ => exact h

def Serializable : DeltaAttrs → Prop
  | .addTableEntry _ columnDefs .. => ∀ c ∈ columnDefs, c.columnType.Serializable = true
  | _ => True

theorem sized (a : DeltaAttrs) : Sized a.write a.size a.Serializable := by
  cases a with
  | addDBEntry dbEntryDir => exact .ok (by simp [stringSize])
  | addTableEntry tableEntryDir columnDefs rowCount unsealedId nextSegmentId =>
    have hhead : Sized (.ok (writeString tableEntryDir ++ writePod (Int32.ofNat columnDefs.length)))
        (.ok (Int32.ofNat (4 + tableEntryDir.length) + Int32.ofNat 4)) True := by
      rw [← Int32.ofNat_add]
      exact .ok (by simp [stringSize, Pod.width])
    have htail : Sized (.ok (writePod rowCount ++ (writePod unsealedId ++ writePod nextSegmentId)))
        (.ok (Int32.ofNat (8 + 4 * 2))) True :=
      Sized.ok (by simp [Pod.width])
    exact (hhead.then ((Sized.all DeltaColumn.sized columnDefs).then htail)).congr
      (by simp [Serializable])
  | addSegmentEntry attrs => exact .ok attrs.length_write.symm
  | addBlockEntry attrs => exact Sized.ok attrs.length_write.symm
  | addColumnEntry outlineInfos =>
    refine .ok ?_
    simp only [length_append, length_writePod, WalBlockInfo.length_flatMap_writeOutline, Pod.width]
  | addTableIndexEntry index dropped =>
    cases index with
    | none => exact .ok rfl
    | some index =>
      refine .of_length ?_
      rw [IndexBase.getSizeInBytes_eq, ← Int32.ofNat_add, length_append, length_writeString,
        stringSize]
  | addSegmentIndexEntry minTs maxTs nextChunkId => exact .ok (by simp [Pod.width])
  | addChunkIndexEntry baseName baseRowid rowCount deprecateTs =>
    exact .ok (by simp [stringSize, Pod.width])

end DeltaAttrs

namespace DeltaOp

variable {op : DeltaOp}

/-- The `GetSizeInBytes` of the operation. The two operations that add up in an `int` and those
that add up in a `size_t` give the same 32 bits, and no caller looks at more. -/
def getSizeInBytes (op : DeltaOp) : Except Exn Int32 :=
  addSize (.ok (Int32.ofNat (1 + op.base.size))) op.attrs.size

/-- The `WriteAdv` of the operation. -/
def writeAdv (op : DeltaOp) : Except Exn Bytes :=
  writeThen (.ok (writePod op.attrs.type.code ++ op.base.write)) op.attrs.write

/-- The switch of `CatalogDeltaOperation::ReadAdv` with the `ReadAdv` of each operation. The merge
flag decides whether an index operation has more to read. -/
def readOp (ptrEnd : ℤ) (code : UInt8) : Read DeltaOp :=
  match CatalogDeltaOpType.ofCode code with
  | some .addDatabaseEntry => do
    let base ← DeltaBase.read
    let dbEntryDir ← readString
    pure ⟨base, .addDBEntry dbEntryDir, trivial⟩
  | some .addTableEntry => do
    let base ← DeltaBase.read
    let tableEntryDir ← readString
    let columnsSize ← readPod Int32
    let columnDefs ← readMany columnsSize.toNatClampNeg (DeltaColumn.read ptrEnd)
    let rowCount ← readPod UInt64
    let unsealedId ← readPod UInt32
    let nextSegmentId ← readPod UInt32
    pure ⟨base, .addTableEntry tableEntryDir columnDefs rowCount unsealedId nextSegmentId, trivial⟩
  | some .addSegmentEntry => do
    let base ← DeltaBase.read
    let attrs ← SegmentAttrs.read
    pure ⟨base, .addSegmentEntry attrs, trivial⟩
  | some .addBlockEntry => do
    let base ← DeltaBase.read
    let attrs ← BlockAttrs.read
    pure ⟨base, .addBlockEntry attrs, trivial⟩
  | some .addColumnEntry => do
    let base ← DeltaBase.read
    let outlineInfosSize ← readPod UInt32
    let outlineInfos ← readMany outlineInfosSize.toNat WalBlockInfo.readOutline
    pure ⟨base, .addColumnEntry outlineInfos, trivial⟩
  | some .addTableIndexEntry => do
    let base ← DeltaBase.read
    if h : base.mergeFlag = .delete then
      pure ⟨base, .addTableIndexEntry none none, by simp [DeltaAttrs.Fits, h]⟩
    else
      let indexDir ← readString
      let ptr ← tell
      let indexBase ← IndexBase.readAdv (ptrEnd - ptr)
      pure ⟨base, .addTableIndexEntry (some (indexDir, indexBase))
        none, by simp [DeltaAttrs.Fits, h]⟩
  | some .addSegmentIndexEntry => do
    let base ← DeltaBase.read
    let minTs ← readPod UInt64
    let maxTs ← readPod UInt64
    let nextChunkId ← readPod UInt32
    pure ⟨base, .addSegmentIndexEntry minTs maxTs nextChunkId, trivial⟩
  | some .addChunkIndexEntry => do
    let base ← DeltaBase.read
    let baseName ← readString
    let baseRowid ← readPod RowID
    let rowCount ← readPod UInt32
    let deprecateTs ← readPod UInt64
    pure ⟨base, .addChunkIndexEntry baseName baseRowid rowCount deprecateTs, trivial⟩
  | _ => raise (.unrecoverable
    ("UNIMPLEMENTED ReadAdv for CatalogDeltaOperation type " ++ toString code.toInt8))

/-- `CatalogDeltaOperation::ReadAdv`. -/
def readAdv (maxBytes : ℤ) : Read DeltaOp := do
  let start ← tell
  let code ← readPod UInt8
  let op ← readOp (start + maxBytes) code
  let ptr ← tell
  if start + maxBytes - ptr < 0 then
    raise (.unrecoverable "ptr goes out of range when reading CatalogDeltaOperation")
  else pure op

/-- The operation without what the writer leaves out. -/
def forget (op : DeltaOp) : DeltaOp := ⟨op.base, op.attrs.forget, DeltaAttrs.fits_forget op.fits⟩

/-- **The size of an operation is the number of bytes written exactly when every column type is
serializable.** -/
theorem sized (op : DeltaOp) : Sized op.writeAdv op.getSizeInBytes op.attrs.Serializable := by
  have hhead : Sized (.ok (writePod op.attrs.type.code ++ op.base.write))
      (.ok (Int32.ofNat (1 + op.base.size))) True :=
    Sized.ok (by simp [Pod.width])
  exact (hhead.then op.attrs.sized).congr (by simp)

theorem writeAdv_pos (h : op.writeAdv = .ok bs) : 0 < bs.length :=
  pos_of_writeThen (by rw [length_append, length_writePod]; exact Nat.add_pos_left Nat.one_pos _) h

theorem readOp_reads (hser : op.attrs.Serializable) (hw : op.attrs.write = .ok bs)
    (hlim : op.base.size + bs.length < sizeLimit)
    (hend : (p + (op.base.size + bs.length) : ℤ) ≤ ptrEnd) :
    ReadsAt p (readOp ptrEnd op.attrs.type.code) (op.base.write ++ bs) op.forget := by
  have hbase : ∀ q, ReadsAt q read op.base.write op.base := fun q => read_write (by omega)
  obtain ⟨base, attrs, fits⟩ := op
  cases attrs with
  | addDBEntry dbEntryDir =>
    cases hw
    rw [length_writeString, stringSize] at hlim
    exact (hbase p).bind <| (readString_writeString (by omega)).last (.pure _)
  | addTableEntry tableEntryDir columnDefs rowCount unsealedId nextSegmentId =>
    obtain ⟨_, _, ⟨⟩, htail, rfl⟩ := writeThen_eq_ok.mp hw
    obtain ⟨cols, _, hcols, ⟨⟩, rfl⟩ := writeThen_eq_ok.mp htail
    have hcount := length_le_of_writeAll (fun _ _ => write_pos) hcols
    simp only [length_append, length_writeString, stringSize, length_writePod, Pod.width]
      at hlim hend
    rw [append_assoc]
    refine (hbase p).bind <| (readString_writeString (by omega)).bind <| .pod ?_
    rw [toNatClampNeg_ofNat (by omega)]
    simp only [length_write, length_writeString, stringSize, length_writePod, Pod.width]
    refine .bind (readsAt_writeAll_map (f := DeltaColumn.forget) hcols fun c hc b q hb hq hq' =>
      ?_) ?_
    · exact DeltaColumn.read_write (hser c hc) hb (by omega) (by omega)
    · exact .pod <| .pod <| (ReadsAt.readPod _).last (ReadsAt.pure _)
  | addSegmentEntry attrs =>
    cases hw
    rw [SegmentAttrs.length_write] at hlim
    exact (hbase p).bind <| (SegmentAttrs.read_write (by omega)).last (ReadsAt.pure _)
  | addBlockEntry attrs =>
    cases hw
    rw [BlockAttrs.length_write] at hlim
    exact (hbase p).bind <| (BlockAttrs.read_write (by omega)).last (ReadsAt.pure _)
  | addColumnEntry outlineInfos =>
    cases hw
    rw [length_append, WalBlockInfo.length_flatMap_writeOutline] at hlim
    have hcount : (UInt32.ofNat outlineInfos.length).toNat = outlineInfos.length := by
      unfold sizeLimit at hlim
      rw [UInt32.toNat_ofNat']
      omega
    refine (hbase p).bind <| .pod ?_
    rw [hcount]
    exact .last (.many fun o _ q _ _ => .pod <| (ReadsAt.readPod _).last (ReadsAt.pure _))
      (ReadsAt.pure _)
  | addTableIndexEntry index dropped =>
    refine (hbase p).bind ?_
    cases index with
    | none =>
      cases hw
      have hflag : base.mergeFlag = .delete := by simpa using fits.1
      simp only [hflag, dif_pos]
      exact .pure _
    | some index =>
      cases hw
      have hflag : base.mergeFlag ≠ .delete := by simpa using fits.1
      rw [dif_neg hflag]
      rw [length_append, length_writeString, stringSize] at hlim hend
      push_cast at hend
      refine (readString_writeString (by omega)).bind <| .tell_bind ?_
      rw [length_write, length_writeString, stringSize]
      exact (IndexBase.readAdv_writeAdv (by omega) (by push_cast; omega)).last (ReadsAt.pure _)
  | addSegmentIndexEntry minTs maxTs nextChunkId =>
    cases hw
    exact (hbase p).bind <| .pod <| .pod <| (ReadsAt.readPod _).last (ReadsAt.pure _)
  | addChunkIndexEntry baseName baseRowid rowCount deprecateTs =>
    cases hw
    rw [length_append, length_writeString, stringSize] at hlim
    exact (hbase p).bind <| (readString_writeString (by omega)).bind <|
      .pod <| .pod <| (ReadsAt.readPod _).last (ReadsAt.pure _)

/-- **What is read back of a serializable operation is the operation without what the writer leaves
out.** -/
theorem readAdv_writeAdv {m : ℤ} (hser : op.attrs.Serializable) (hw : op.writeAdv = .ok bs)
    (hlim : bs.length < sizeLimit) (hm : bs.length ≤ m) : ReadsAt p (readAdv m) bs op.forget := by
  obtain ⟨_, attrs, ⟨⟩, hattrs, rfl⟩ := writeThen_eq_ok.mp hw
  simp only [length_append, length_writePod, length_write, Pod.width] at hlim hm
  refine .tell_bind ?_
  rw [append_assoc]
  refine .pod ?_
  refine ReadsAt.last (readOp_reads hser hattrs (by omega)
    (by rw [length_writePod]; simp only [Pod.width]; push_cast; omega)) ?_
  refine .tell_bind ?_
  simp only [length_append, length_writePod, length_write, Pod.width]
  rw [if_neg (by push_cast; omega)]
  exact .pure _

def byteCount (op : DeltaOp) : ℕ := 1 + op.base.size + match op.attrs with
  | .addDBEntry dbEntryDir => 4 + dbEntryDir.length
  | .addTableEntry tableEntryDir columnDefs .. =>
    4 + tableEntryDir.length + 4 + (columnDefs.map DeltaColumn.byteCount).sum + 16
  | .addSegmentEntry attrs => attrs.size
  | .addBlockEntry attrs => attrs.size
  | .addColumnEntry outlineInfos => 4 + outlineInfos.length * 12
  | .addTableIndexEntry none _ => 0
  | .addTableIndexEntry (some (indexDir, indexBase)) _ => 4 + indexDir.length + indexBase.byteCount
  | .addSegmentIndexEntry .. => 20
  | .addChunkIndexEntry baseName .. => 4 + baseName.length + 20

theorem length_of_writeAdv (hser : op.attrs.Serializable) (hw : op.writeAdv = .ok bs) :
    bs.length = op.byteCount := by
  obtain ⟨_, attrs, ⟨⟩, hattrs, rfl⟩ := writeThen_eq_ok.mp hw
  obtain ⟨base, a, fits⟩ := op
  rw [length_append, length_append, length_writePod, length_write, byteCount]
  congr 1
  cases a with
  | addTableEntry tableEntryDir columnDefs rowCount unsealedId nextSegmentId =>
    obtain ⟨_, _, ⟨⟩, htail, rfl⟩ := writeThen_eq_ok.mp hattrs
    obtain ⟨cols, _, hcols, ⟨⟩, rfl⟩ := writeThen_eq_ok.mp htail
    have hlen : cols.length = (columnDefs.map DeltaColumn.byteCount).sum :=
      length_of_writeAll (fun c hc _ hb => DeltaColumn.length_of_write (hser c hc) hb) hcols
    simp only [length_append, length_writeString, stringSize, length_writePod, Pod.width, hlen]
    omega
  | addTableIndexEntry index dropped =>
    cases index <;> cases hattrs
    · rfl
    · rw [length_append, length_writeString, stringSize, IndexBase.length_writeAdv_eq]
  | addSegmentEntry attrs | addBlockEntry attrs => cases hattrs; exact attrs.length_write
  | addColumnEntry outlineInfos =>
    cases hattrs
    rw [length_append, length_writePod, WalBlockInfo.length_flatMap_writeOutline]
    rfl
  | _ => cases hattrs; simp [stringSize, Pod.width]

theorem writeAdv_of_serializable (hser : op.attrs.Serializable) : ∃ bs, op.writeAdv = .ok bs := by
  obtain ⟨bs, hbs⟩ : ∃ bs, op.attrs.write = .ok bs := by
    obtain ⟨base, a, fits⟩ := op
    cases a with
    | addTableEntry tableEntryDir columnDefs rowCount unsealedId nextSegmentId =>
      obtain ⟨cols, hcols⟩ := writeAll_of_forall fun c hc =>
        write_of_serializable (hser c hc)
      exact ⟨_, writeThen_eq_ok.mpr ⟨_, _, rfl, writeThen_eq_ok.mpr ⟨cols, _, hcols, rfl, rfl⟩,
        rfl⟩⟩
    | addTableIndexEntry index dropped => cases index <;> exact ⟨_, rfl⟩
    | _ => exact ⟨_, rfl⟩
  exact ⟨_, writeThen_eq_ok.mpr ⟨_, bs, rfl, hbs, rfl⟩⟩

/-! ## Printing -/

/-- What `ToString` of the operation raises, if it does: only the columns of a table have printers
that can. -/
def toStringError (op : DeltaOp) : Option Exn :=
  match op.attrs with
  | .addTableEntry _ columnDefs .. => columnDefs.findSome? ColumnDef.toStringError
  | _ => none

theorem toStringError_forget : op.forget.toStringError = op.toStringError := by
  obtain ⟨base, a, fits⟩ := op
  cases a with
  | addTableEntry tableEntryDir columnDefs rowCount unsealedId nextSegmentId =>
    simp only [forget, DeltaAttrs.forget, toStringError, findSome?_map]
    rfl
  | _ => rfl

/-- The writer leaves nothing of the operation out: no column has `build_bloom_filter_` set, and an
index that is dropped has no definition. -/
def FullyWritten (op : DeltaOp) : Prop :=
  match op.attrs with
  | .addTableEntry _ columnDefs .. => ∀ c ∈ columnDefs, c.buildBloomFilter = false
  | .addTableIndexEntry _ dropped => dropped = none
  | _ => True

theorem forget_eq_self_iff (op : DeltaOp) : op.forget = op ↔ op.FullyWritten := by
  obtain ⟨base, a, fits⟩ := op
  have hcol : ∀ c : ColumnDef, DeltaColumn.forget c = c ↔ c.buildBloomFilter = false := by
    intro c
    refine ⟨fun h => h ▸ rfl, fun h => ?_⟩
    cases c
    cases h
    rfl
  have hmap : ∀ cs : List ColumnDef, cs.map DeltaColumn.forget = cs ↔
      ∀ c ∈ cs, c.buildBloomFilter = false := by
    intro cs
    have h := map_inj_left (l := cs) (f := DeltaColumn.forget) (g := id)
    rw [map_id] at h
    simp only [h, id, hcol]
  cases a with
  | addTableEntry tableEntryDir columnDefs rowCount unsealedId nextSegmentId =>
    simp [forget, DeltaAttrs.forget, FullyWritten, hmap]
  | addTableIndexEntry index dropped =>
    simp [forget, DeltaAttrs.forget, FullyWritten, eq_comm]
  | _ => exact iff_of_true rfl trivial

end DeltaOp

end Infinity.Wal
